import Litany.Machine.Evaluate
import Litany.Proofs.Outcome

/-!
# Reading and writing cells

What one write changes: the cell that it writes, and no other. So a value that was read from a cell
is a copy, and nothing that happens to another cell shows in it.

A place that has been visited can be visited again without change, and what was found there can be
put back without change.
-/

namespace Litany

/-! ### Cells of objects -/

namespace Cells

theorem mem_put {cells : Cells} {key : String} {v : Value} {cell : String × Value}
    (h : cell ∈ cells.put key v) : cell = (key, v) ∨ cell ∈ cells := by
  induction cells with
  | nil => cases h
  | cons first rest ih =>
    obtain ⟨key', old⟩ := first
    rw [put] at h
    split at h
    · rename_i hkey
      rcases List.mem_cons.mp h with hfirst | hrest
      · rw [← hkey]
        exact Or.inl hfirst
      · exact Or.inr (List.mem_cons_of_mem _ hrest)
    · rcases List.mem_cons.mp h with hfirst | hrest
      · exact Or.inr (hfirst ▸ List.mem_cons_self)
      · rcases ih hrest with hput | hold
        · exact Or.inl hput
        · exact Or.inr (List.mem_cons_of_mem _ hold)

theorem mem_of_lookup {cells : Cells} {key : String} {v : Value} (h : cells.lookup key = some v) :
    (key, v) ∈ cells := by
  induction cells with
  | nil => cases h
  | cons first rest ih =>
    obtain ⟨key', old⟩ := first
    rw [List.lookup_cons] at h
    split at h
    · rename_i hkey
      obtain rfl := Option.some.inj h
      rw [eq_of_beq hkey]
      exact List.mem_cons_self
    · exact List.mem_cons_of_mem _ (ih h)

/-- The cell of a key that is put back as it was found changes nothing. -/
private theorem put_of_lookup {cells : Cells} {key : String} {v : Value}
    (h : cells.lookup key = some v) : cells.put key v = cells := by
  induction cells with
  | nil => cases h
  | cons first rest ih =>
    obtain ⟨key', old⟩ := first
    rw [List.lookup_cons] at h
    rw [put]
    split at h
    · rename_i hkey
      obtain rfl := Option.some.inj h
      rw [if_pos (eq_of_beq hkey).symm]
    · rename_i hkey
      rw [if_neg, ih h]
      rintro rfl
      simp at hkey

/-- A reserved key has a cell, which is new or was there. -/
theorem lookup_reserve (cells : Cells) (key : String) (zero : Value) :
    (cells.lookup key = none ∧ cells.reserve key zero = cells ++ [(key, zero)] ∧
        (cells.reserve key zero).lookup key = some zero) ∨
      ∃ v, cells.lookup key = some v ∧ cells.reserve key zero = cells := by
  unfold reserve
  cases hfound : cells.lookup key with
  | none =>
    left
    refine ⟨rfl, rfl, ?_⟩
    simp only [Option.isSome_none, Bool.false_eq_true, if_false, List.lookup_append, hfound,
      Option.none_or]
    simp
  | some v => exact Or.inr ⟨v, rfl, rfl⟩

/-- What is found under a reserved key was there, or is the zero that a new cell holds. -/
theorem getD_lookup_reserve (cells : Cells) (key : String) (zero : Value) :
    ((cells.reserve key zero).lookup key).getD zero = (cells.lookup key).getD zero := by
  rcases cells.lookup_reserve key zero with ⟨hnone, -, hnew⟩ | ⟨v, -, hold⟩
  · rw [hnew, hnone]
    rfl
  · rw [hold]

/-- Reserving a key leaves the cells of other keys alone. -/
theorem lookup_reserve_of_ne (cells : Cells) {key other : String} (hother : other ≠ key)
    (zero : Value) : (cells.reserve key zero).lookup other = cells.lookup other := by
  rcases cells.lookup_reserve key zero with ⟨-, hnew, -⟩ | ⟨v, -, hold⟩
  · have hne : (other == key) = false := by simpa using hother
    rw [hnew, List.lookup_append, List.lookup_cons, hne]
    exact Option.or_none
  · rw [hold]

/-- The cell of a key holds what is put there. -/
theorem lookup_put {cells : Cells} {key : String} {v : Value} (h : cells.lookup key = some v)
    (w : Value) : (cells.put key w).lookup key = some w := by
  induction cells with
  | nil => cases h
  | cons first rest ih =>
    obtain ⟨key', old⟩ := first
    rw [put]
    by_cases hkey : key' = key
    · rw [if_pos hkey, hkey, List.lookup_cons_self]
    · have hne : (key == key') = false := by simpa using Ne.symm hkey
      rw [List.lookup_cons, hne] at h
      rw [if_neg hkey, List.lookup_cons, hne]
      exact ih h

/-- Putting a content leaves the cells of other keys alone. -/
theorem lookup_put_of_ne (cells : Cells) {key other : String} (hother : other ≠ key) (w : Value) :
    (cells.put key w).lookup other = cells.lookup other := by
  induction cells with
  | nil => rfl
  | cons first rest ih =>
    obtain ⟨key', old⟩ := first
    rw [put]
    by_cases hkey : key' = key
    · have hne : (other == key') = false := by simpa [hkey] using hother
      rw [if_pos hkey, List.lookup_cons, List.lookup_cons, hne]
    · rw [if_neg hkey, List.lookup_cons, List.lookup_cons, ih]

end Cells

/-! ### One cell at a time -/

namespace Machine

/-- A cell that is there holds what it is set to. -/
theorem cell?_setCell {m : Machine} {slot : Slot} {v : Value}
    (hv : m.cell? slot = some v) (v' : Value) :
    (m.setCell slot v').cell? slot = some v' := by
  cases slot with
  | global i =>
    have hi : i < m.globals.length := (List.getElem?_eq_some_iff.mp hv).1
    simp only [cell?, setCell]
    exact List.getElem?_set_self hi
  | argument i | own i =>
    obtain ⟨globals, procedures, frames, output, blocks⟩ := m
    cases frames with
    | nil => cases hv
    | cons f rest =>
      have hi := (List.getElem?_eq_some_iff.mp hv).1
      simp only [cell?, setCell, List.head?_cons, Option.bind_some]
      exact List.getElem?_set_self hi

/-- Setting a cell leaves every frame but the innermost alone. -/
private theorem tail_frames_setCell (m : Machine) (slot : Slot) (v : Value) :
    (m.setCell slot v).frames.tail = m.frames.tail := by
  obtain ⟨globals, procedures, frames, output, blocks⟩ := m
  cases slot with
  | global i => rfl
  | argument i | own i => cases frames <;> rfl

/-- Setting a cell leaves every other cell alone. -/
theorem cell?_setCell_of_ne (m : Machine) {slot other : Slot} (hother : other ≠ slot) (v : Value) :
    (m.setCell slot v).cell? other = m.cell? other := by
  obtain ⟨globals, procedures, frames, output, blocks⟩ := m
  cases slot with
  | global i =>
    cases other with
    | global j => exact List.getElem?_set_ne fun h => hother (congrArg Slot.global h.symm)
    | argument j | own j => rfl
  | argument i =>
    cases frames with
    | nil => rfl
    | cons f rest =>
      cases other with
      | argument j => exact List.getElem?_set_ne fun h => hother (congrArg Slot.argument h.symm)
      | global j | own j => rfl
  | own i =>
    cases frames with
    | nil => rfl
    | cons f rest =>
      cases other with
      | own j => exact List.getElem?_set_ne fun h => hother (congrArg Slot.own h.symm)
      | global j | argument j => rfl

/-- Setting a cell to what it holds changes nothing. -/
theorem setCell_of_cell? {m : Machine} {slot : Slot} {v : Value} (hv : m.cell? slot = some v) :
    m.setCell slot v = m := by
  have hset : ∀ {l : List Value} {i : Nat}, l[i]? = some v → l.set i v = l := by
    intro l i hi
    obtain ⟨hlt, rfl⟩ := List.getElem?_eq_some_iff.mp hi
    exact List.set_getElem_self hlt
  obtain ⟨globals, procedures, frames, output, blocks⟩ := m
  cases slot with
  | global i => simp only [setCell, hset (show globals[i]? = some v from hv)]
  | argument i =>
    cases frames with
    | nil => cases hv
    | cons f rest => simp only [setCell, hset (show f.arguments[i]? = some v from hv)]
  | own i =>
    cases frames with
    | nil => cases hv
    | cons f rest => simp only [setCell, hset (show f.locals[i]? = some v from hv)]

/-- A machine that differs from another in one cell within reach at most. -/
def SameBut (slot : Slot) (m later : Machine) : Prop :=
  later.frames.tail = m.frames.tail ∧ ∀ other, other ≠ slot → later.cell? other = m.cell? other

theorem SameBut.refl (slot : Slot) (m : Machine) : SameBut slot m m :=
  ⟨rfl, fun _ _ => rfl⟩

theorem SameBut.trans {slot : Slot} {m₁ m₂ m₃ : Machine} (h : SameBut slot m₁ m₂)
    (h' : SameBut slot m₂ m₃) : SameBut slot m₁ m₃ :=
  ⟨h'.1.trans h.1, fun other hother => (h'.2 other hother).trans (h.2 other hother)⟩

private theorem sameBut_setCell (m : Machine) (slot : Slot) (v : Value) :
    SameBut slot m (m.setCell slot v) :=
  ⟨m.tail_frames_setCell slot v, fun _ hother => m.cell?_setCell_of_ne hother v⟩

/-- A machine that differs from another in its cells at most: nothing was printed, installed or
handed over. -/
def OnlyCells (m later : Machine) : Prop :=
  ∃ globals frames, later = { m with globals, frames }

namespace OnlyCells

variable {m later last : Machine}

theorem refl (m : Machine) : OnlyCells m m :=
  ⟨m.globals, m.frames, rfl⟩

theorem trans (h : OnlyCells m later) (h' : OnlyCells later last) : OnlyCells m last := by
  obtain ⟨globals, frames, rfl⟩ := h
  obtain ⟨globals', frames', rfl⟩ := h'
  exact ⟨globals', frames', rfl⟩

theorem procedures (h : OnlyCells m later) : later.procedures = m.procedures := by
  obtain ⟨globals, frames, rfl⟩ := h
  rfl

theorem blocks (h : OnlyCells m later) : later.blocks = m.blocks := by
  obtain ⟨globals, frames, rfl⟩ := h
  rfl

end OnlyCells

theorem onlyCells_setCell (m : Machine) (slot : Slot) (v : Value) :
    OnlyCells m (m.setCell slot v) := by
  obtain ⟨globals, procedures, frames, output, blocks⟩ := m
  cases slot with
  | global i => exact ⟨_, _, rfl⟩
  | argument i | own i => cases frames <;> exact ⟨_, _, rfl⟩

end Machine

namespace Run

theorem sameBut_of_visit {p : Place} {v : Value} {m later : Machine}
    (h : visit p m = .ok v later) : m.SameBut p.slot later := by
  unfold visit at h
  split at h
  · cases h
  · split at h
    · cases h
      exact .refl p.slot m
    · split at h
      · cases h
      · cases h
        exact m.sameBut_setCell p.slot _

/-- Storing at a place changes the cell of its slot and no other: a value that was read from
elsewhere, or came in as an argument, is a copy. -/
theorem sameBut_of_store {p : Place} {v kept : Value} {m later : Machine}
    (h : store p v m = .ok kept later) : m.SameBut p.slot later := by
  obtain ⟨found, visited, hvisit, hrest⟩ := bind_eq_ok.mp h
  cases hrest
  refine (sameBut_of_visit hvisit).trans ?_
  unfold overwrite
  split
  · exact visited.sameBut_setCell p.slot _
  · split
    · exact .refl p.slot visited
    · exact visited.sameBut_setCell p.slot _

theorem onlyCells_of_visit {p : Place} {v : Value} {m later : Machine}
    (h : visit p m = .ok v later) : m.OnlyCells later := by
  unfold visit at h
  split at h
  · cases h
  · split at h
    · cases h
      exact .refl m
    · split at h
      · cases h
      · cases h
        exact m.onlyCells_setCell p.slot _

theorem onlyCells_overwrite (p : Place) (v : Value) (m : Machine) :
    m.OnlyCells (overwrite p v m) := by
  unfold overwrite
  split
  · exact m.onlyCells_setCell p.slot _
  · split
    · exact .refl m
    · exact m.onlyCells_setCell p.slot _

theorem onlyCells_of_store {p : Place} {v kept : Value} {m later : Machine}
    (h : store p v m = .ok kept later) : m.OnlyCells later := by
  obtain ⟨found, visited, hvisit, hrest⟩ := bind_eq_ok.mp h
  cases hrest
  exact (onlyCells_of_visit hvisit).trans (onlyCells_overwrite p _ visited)

/-- A visit that fails has changed nothing. -/
theorem eq_of_visit_error {p : Place} {stop : Stop} {m later : Machine}
    (h : visit p m = .error stop later) : later = m := by
  unfold visit at h
  split at h
  · cases h
    rfl
  · split at h
    · cases h
    · split at h
      · cases h
        rfl
      · cases h

/-- What a visit finds and leaves: the content of the slot itself, or a field cell of the object in
it, which is new and zero if it was not there. -/
theorem cases_of_visit {p : Place} {v : Value} {m later : Machine} (h : visit p m = .ok v later) :
    (p.path = [] ∧ later = m ∧ m.cell? p.slot = some v) ∨
      ∃ cells, p.path ≠ [] ∧ m.cell? p.slot = some (.object cells) ∧
        later = m.setCell p.slot (.object (Cells.reserve cells p.key (Value.zero p.type))) ∧
        (Cells.reserve cells p.key (Value.zero p.type)).lookup p.key = some v := by
  unfold visit at h
  split at h
  · cases h
  · rename_i content hcell
    split at h
    · rename_i hpath
      cases h
      exact Or.inl ⟨hpath, rfl, hcell⟩
    · rename_i segment rest hpath
      have hne : p.path ≠ [] := by simp [hpath]
      cases content with
      | object cells =>
        cases h
        refine Or.inr ⟨cells, hne, hcell, rfl, ?_⟩
        rcases Cells.lookup_reserve cells p.key (Value.zero p.type) with
          ⟨-, -, hlookup⟩ | ⟨w, hlookup, heq⟩
        · rw [hlookup]
          rfl
        · rw [heq, hlookup]
          rfl
      | int n => cases h
      | float x => cases h
      | text s => cases h

/-- A place that has been visited is visited again without change. -/
theorem visit_again {p : Place} {v : Value} {m later : Machine} (h : visit p m = .ok v later) :
    visit p later = .ok v later := by
  rcases cases_of_visit h with ⟨-, rfl, -⟩ | ⟨cells, hpath, hcell, rfl, hlookup⟩
  · exact h
  · have hreserved : Cells.reserve (Cells.reserve cells p.key (Value.zero p.type)) p.key
        (Value.zero p.type) = Cells.reserve cells p.key (Value.zero p.type) :=
      if_pos (by rw [hlookup]; rfl)
    have hcell' := Machine.cell?_setCell hcell
      (.object (Cells.reserve cells p.key (Value.zero p.type)))
    obtain ⟨segment, rest, hcons⟩ := List.exists_cons_of_ne_nil hpath
    simp only [visit, hcell', hcons, Value.visit?, hreserved, hlookup, Option.getD_some]
    rw [Machine.setCell_of_cell? hcell']

/-- What a visit has found may be put back without change. -/
theorem overwrite_of_visit {p : Place} {v : Value} {m later : Machine}
    (h : visit p m = .ok v later) : overwrite p v later = later := by
  unfold overwrite
  rcases cases_of_visit h with ⟨hpath, rfl, hcell⟩ | ⟨cells, hpath, hcell, rfl, hlookup⟩
  · rw [hpath]
    exact Machine.setCell_of_cell? hcell
  · have hcell' := Machine.cell?_setCell hcell
      (.object (Cells.reserve cells p.key (Value.zero p.type)))
    rw [hcell']
    split
    · rename_i hpath'
      exact absurd hpath' hpath
    · simp only [Value.putField, Cells.put_of_lookup hlookup]
      exact Machine.setCell_of_cell? hcell'

/-- What is found under an ordinal is installed there, and nothing changes. -/
theorem procedure_eq_ok {ordinal line : Nat} {name : String} {p : Procedure}
    {m later : Machine} :
    procedure ordinal name line m = .ok p later ↔
      m.procedures[ordinal]? = some (some p) ∧ later = m := by
  unfold procedure
  constructor
  · intro h
    split at h
    · rename_i q hentry
      cases h
      exact ⟨hentry, rfl⟩
    · cases h
  · rintro ⟨hentry, rfl⟩
    rw [hentry]

end Run

/-! ### Every cell of a machine -/

/-- Where a cell is: in a frame, counted from the innermost, or among the globals; the variable
itself, or the field cell of its object at the end of a path. -/
structure Address where
  depth : Nat
  slot : Slot
  path : List String

/-- A value itself, or the field cell at the end of a path. -/
def Value.at? (v : Value) : List String → Option Value
  | [] => some v
  | segment :: rest =>
    match v with
    | .object cells => cells.lookup (".".intercalate (segment :: rest))
    | _ => none

/-- A slot means the same cell to the innermost call and to one so far below it: always if it is
that of a global, else only if the two are one. -/
def Slot.Shared (depth : Nat) : Slot → Prop
  | .global _ => True
  | .argument _ | .own _ => depth = 0

namespace Machine

/-- The machine as a waiting call will find it, so many calls below the innermost. -/
def below (depth : Nat) (m : Machine) : Machine :=
  { m with frames := m.frames.drop depth }

/-- The content of a cell anywhere. -/
def at? (m : Machine) (a : Address) : Option Value :=
  ((m.below a.depth).cell? a.slot).bind (·.at? a.path)

/-- Setting a cell changes the cell of its slot only, in the innermost frame or among the
globals. -/
private theorem cell?_below_setCell (m : Machine) (slot other : Slot) (v : Value) (depth : Nat) :
    ((m.setCell slot v).below depth).cell? other = (m.below depth).cell? other ∨
      other = slot ∧ slot.Shared depth ∧
        ((m.setCell slot v).below depth).cell? slot = (m.setCell slot v).cell? slot ∧
        (m.below depth).cell? slot = m.cell? slot := by
  by_cases hother : other = slot
  · subst hother
    cases other with
    | global i => exact Or.inr ⟨rfl, trivial, rfl, rfl⟩
    | argument i | own i =>
      cases depth with
      | zero => exact Or.inr ⟨rfl, rfl, rfl, rfl⟩
      | succ depth =>
        left
        simp only [below, cell?, ← List.drop_tail, tail_frames_setCell]
  · left
    cases other with
    | global i => exact m.cell?_setCell_of_ne hother v
    | argument i | own i =>
      cases depth with
      | zero => exact m.cell?_setCell_of_ne hother v
      | succ depth => simp only [below, cell?, ← List.drop_tail, tail_frames_setCell]

end Machine

/-- A visit changes no cell. All it may do is to add a field cell to the object that it looks
into. -/
theorem Run.at?_of_visit {p : Place} {v : Value} {m later : Machine} (h : visit p m = .ok v later)
    {a : Address} (ha : a.slot = p.slot → a.slot.Shared a.depth → a.path = [] → p.path = [])
    {w : Value} (hw : m.at? a = some w) : later.at? a = some w := by
  rcases cases_of_visit h with ⟨-, rfl, -⟩ | ⟨cells, hpath, hcell, rfl, -⟩
  · exact hw
  · unfold Machine.at? at *
    rcases m.cell?_below_setCell p.slot a.slot _ a.depth with
      hsame | ⟨hslot, hshared, hlater, hbefore⟩
    · rw [hsame]
      exact hw
    · rw [hslot, hbefore, hcell] at hw
      rw [hslot, hlater, Machine.cell?_setCell hcell]
      obtain ⟨depth, slot, path⟩ := a
      cases path with
      | nil => exact absurd (ha hslot (hslot ▸ hshared) rfl) hpath
      | cons segment rest =>
        -- the cell was there, so it stands in front of a new one
        simp only [Option.bind_some, Value.at?] at *
        rcases Cells.lookup_reserve cells p.key (Value.zero p.type) with ⟨-, heq, -⟩ | ⟨-, -, heq⟩
        · rw [heq, List.lookup_append, hw]
          rfl
        · rw [heq]
          exact hw

end Litany
