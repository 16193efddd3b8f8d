import Mathlib.Data.List.Induction
import Litany.Proofs.Machine.Cells

/-!
# Objects as maps

The cells of an object are a list that is searched from the front and grows at the end. To the
program it is a map from paths to values, with one more trait that shows: a path gets its cell when
it is visited first, so the cells stand in the order of first visits, and a path that is never
visited has none. A path is one key, whatever its dots: `a` and `a.x` have nothing to do with each
other.

`Cells.Records` says what the cells are after a history of visits, from the history alone. One visit
keeps it (`Records.after`), and so does a whole history (`exists_records`). What a visit leaves
alone is a fact about any cells (`getElem?_after_iff`).
-/

namespace Litany

/-- A visit of a field cell: its path, the zero of its type, and what is then stored in it, if
anything is. -/
structure Visit where
  path : String
  zero : Value
  stored : Option Value

namespace Visit

/-- The last value that a history stores under a path. -/
def lastStored? (history : List Visit) (path : String) : Option Value :=
  (history.filterMap fun a => if a.path = path then a.stored else none).getLast?

/-- The zero given at the first visit of a path. -/
def firstZero? (history : List Visit) (path : String) : Option Value :=
  (history.find? fun a => a.path == path).map (·.zero)

/-- What a history leaves under a path, if it visits it at all: the last value stored there, or else
the zero of the first visit. -/
def content? (history : List Visit) (path : String) : Option Value :=
  (lastStored? history path).or (firstZero? history path)

end Visit

namespace Value

/-- Make a visit: what is found in the cell, and the object behind the visit. A value that is no
object has no cells and stays as it is. -/
def visitBy (v : Value) (a : Visit) : Option Value × Value :=
  match v.visit? a.path a.zero with
  | none => (none, v)
  | some (found, grown) => (some found, a.stored.elim grown (grown.putField a.path))

/-- Make visits one after the other. -/
def visitAll (v : Value) (history : List Visit) : Value :=
  history.foldl (fun v a => (v.visitBy a).2) v

end Value

/-! ### One visit -/

namespace Cells

/-- The cells behind a visit. -/
def after (cells : Cells) (a : Visit) : Cells :=
  a.stored.elim (cells.reserve a.path a.zero) ((cells.reserve a.path a.zero).put a.path)

private theorem visitBy_object (cells : Cells) (a : Visit) :
    (Value.object cells).visitBy a =
      (some ((cells.lookup a.path).getD a.zero), .object (cells.after a)) := by
  obtain ⟨path, zero, stored⟩ := a
  have hfound := getD_lookup_reserve cells path zero
  cases stored with
  | none => simp only [Value.visitBy, Value.visit?, hfound, after, Option.elim_none]
  | some w =>
    simp only [Value.visitBy, Value.visit?, hfound, after, Option.elim_some, Value.putField]

private theorem map_fst_put (cells : Cells) (key : String) (v : Value) :
    (cells.put key v).map (·.1) = cells.map (·.1) := by
  induction cells with
  | nil => rfl
  | cons first rest ih =>
    obtain ⟨key', old⟩ := first
    rw [put]
    split
    · rfl
    · rw [List.map_cons, List.map_cons, ih]

/-- Putting a content leaves the cells of other keys alone, and where they stand. -/
private theorem getElem?_put_iff (cells : Cells) {key path : String} (hpath : path ≠ key)
    (v w : Value)
    (i : Nat) : (cells.put key v)[i]? = some (path, w) ↔ cells[i]? = some (path, w) := by
  induction cells generalizing i with
  | nil => rfl
  | cons first rest ih =>
    obtain ⟨key', old⟩ := first
    rw [put]
    split
    · rename_i hkey
      cases i with
      | zero =>
        -- the cell in front is that of the key, before and after
        simp only [List.getElem?_cons_zero, Option.some.injEq, Prod.mk.injEq, hkey]
        exact ⟨fun h => absurd h.1.symm hpath, fun h => absurd h.1.symm hpath⟩
      | succ i => rfl
    · cases i with
      | zero => rfl
      | succ i =>
        rw [List.getElem?_cons_succ, List.getElem?_cons_succ]
        exact ih i

/-- Reserving a key leaves the cells of other keys alone, and where they stand. -/
private theorem getElem?_reserve_iff (cells : Cells) {key path : String} (hpath : path ≠ key)
    (zero w : Value) (i : Nat) :
    (cells.reserve key zero)[i]? = some (path, w) ↔ cells[i]? = some (path, w) := by
  rcases lookup_reserve cells key zero with ⟨-, hnew, -⟩ | ⟨v, -, hold⟩
  · rw [hnew, List.getElem?_append]
    split
    · rfl
    · rename_i hi
      have hend : cells[i]? = none := List.getElem?_eq_none (Nat.le_of_not_lt hi)
      have hlast : [(key, zero)][i - cells.length]? ≠ some (path, w) := by
        intro h
        obtain ⟨hkey, -⟩ := Prod.mk.inj (List.mem_singleton.mp (List.mem_of_getElem? h))
        exact hpath hkey
      simp only [hend, hlast, reduceCtorEq]
  · rw [hold]

/-- A visit leaves the cells of other paths alone, and where they stand. -/
theorem getElem?_after_iff (cells : Cells) (a : Visit) {path : String} (hpath : path ≠ a.path)
    (w : Value) (i : Nat) : (cells.after a)[i]? = some (path, w) ↔ cells[i]? = some (path, w) := by
  unfold after
  cases a.stored with
  | none => exact getElem?_reserve_iff cells hpath a.zero w i
  | some v =>
    exact (getElem?_put_iff _ hpath v w i).trans (getElem?_reserve_iff cells hpath a.zero w i)

/-- What is in the cell of a path behind a visit. -/
private theorem lookup_after (cells : Cells) (a : Visit) (path : String) :
    (cells.after a).lookup path =
      if path = a.path then some (a.stored.getD ((cells.lookup path).getD a.zero))
      else cells.lookup path := by
  have hreserved : (cells.reserve a.path a.zero).lookup a.path =
      some ((cells.lookup a.path).getD a.zero) := by
    rcases lookup_reserve cells a.path a.zero with ⟨hnone, -, hnew⟩ | ⟨v, hv, hold⟩
    · rw [hnew, hnone]
      rfl
    · rw [hold, hv]
      rfl
  unfold after
  split
  · rename_i hpath
    subst hpath
    cases a.stored with
    | none => exact hreserved
    | some w => exact lookup_put hreserved w
  · rename_i hpath
    cases a.stored with
    | none => exact lookup_reserve_of_ne cells hpath a.zero
    | some w =>
      exact (lookup_put_of_ne _ hpath w).trans (lookup_reserve_of_ne cells hpath a.zero)

/-- A path that is visited for the first time gets the last cell. -/
private theorem map_fst_after (cells : Cells) (a : Visit) :
    (cells.after a).map (·.1) =
      if a.path ∈ cells.map (·.1) then cells.map (·.1) else cells.map (·.1) ++ [a.path] := by
  have hreserved : (cells.after a).map (·.1) = (cells.reserve a.path a.zero).map (·.1) := by
    unfold after
    cases a.stored with
    | none => rfl
    | some w => exact map_fst_put _ a.path w
  have hmem : a.path ∈ cells.map (·.1) ↔ (cells.lookup a.path).isSome = true := by
    simp only [List.lookup_isSome_iff, List.mem_map, beq_iff_eq]
    exact ⟨fun ⟨c, hc, heq⟩ => ⟨c, hc, heq.symm⟩, fun ⟨c, hc, heq⟩ => ⟨c, hc, heq.symm⟩⟩
  rw [hreserved]
  rcases lookup_reserve cells a.path a.zero with ⟨hnone, hnew, -⟩ | ⟨v, hv, hold⟩
  · rw [if_neg (by simp [hmem, hnone]), hnew, List.map_append]
    rfl
  · rw [if_pos (by simp [hmem, hv]), hold]

end Cells

/-! ### Histories -/

namespace Visit

/-- One more visit leaves what it stores, or else what was there, or else its zero. -/
theorem content?_append (history : List Visit) (a : Visit) (path : String) :
    content? (history ++ [a]) path =
      if path = a.path then some (a.stored.getD ((content? history path).getD a.zero))
      else content? history path := by
  unfold content? lastStored? firstZero?
  rw [List.filterMap_append, List.getLast?_append, List.find?_append]
  by_cases hpath : path = a.path
  · subst hpath
    cases hstored : a.stored with
    | some w => simp [hstored]
    | none =>
      cases hlast : (history.filterMap fun b => if b.path = a.path then b.stored else none).getLast?
        <;> cases hfirst : history.find? fun b => b.path == a.path <;> simp_all
  · simp [hpath, Ne.symm hpath]

end Visit

namespace Cells

open Visit

/-- The cells are those that a history leaves of an empty object: one for every path that it visits,
in the order of the first visits, with what it leaves there. -/
structure Records (history : List Visit) (cells : Cells) : Prop where
  nodup : (cells.map (·.1)).Nodup
  order : cells.map (·.1) = (history.map (·.path)).eraseDups
  content : ∀ path, cells.lookup path = content? history path

theorem Records.empty : Records [] [] :=
  ⟨List.nodup_nil, rfl, fun _ => rfl⟩

/-- One more visit. -/
theorem Records.after {history : List Visit} {cells : Cells} (h : Records history cells)
    (a : Visit) : Records (history ++ [a]) (cells.after a) := by
  have hmem : a.path ∈ cells.map (·.1) ↔ a.path ∈ history.map (·.path) := by
    rw [h.order, List.mem_eraseDups]
  refine ⟨?_, ?_, fun path => ?_⟩
  · rw [map_fst_after]
    split
    · exact h.nodup
    · rename_i hnew
      refine List.nodup_append.mpr ⟨h.nodup, List.pairwise_singleton _ _, fun x hx y hy => ?_⟩
      rw [List.mem_singleton.mp hy]
      exact fun heq => hnew (heq ▸ hx)
  · rw [map_fst_after, List.map_append, List.eraseDups_append, ← h.order]
    split
    · rename_i hold
      have hmet : List.removeAll [a.path] (history.map (·.path)) = [] :=
        List.filter_eq_nil_iff.mpr fun x hx => by
          rw [List.mem_singleton.mp hx]
          simpa using hmem.mp hold
      rw [List.map_singleton, hmet, List.eraseDups_nil, List.append_nil]
    · rename_i hnew
      have hunmet : List.removeAll [a.path] (history.map (·.path)) = [a.path] :=
        List.filter_eq_self.mpr fun x hx => by
          rw [List.mem_singleton.mp hx]
          simpa using fun b hb heq => hnew (hmem.mpr (List.mem_map.mpr ⟨b, hb, heq⟩))
      rw [List.map_singleton, hunmet, List.eraseDups_cons, List.filter_nil, List.eraseDups_nil]
  · rw [lookup_after, content?_append, h.content]

/-- A whole history. -/
theorem exists_records (history : List Visit) :
    ∃ cells, (Value.object []).visitAll history = .object cells ∧ Records history cells := by
  -- from the last visit, since a history grows at its end
  induction history using List.reverseRecOn with
  | nil => exact ⟨[], rfl, .empty⟩
  | append_singleton history a ih =>
    obtain ⟨cells, hcells, hrecords⟩ := ih
    refine ⟨Cells.after cells a, ?_, hrecords.after a⟩
    have hlast : (Value.object []).visitAll (history ++ [a]) =
        (((Value.object []).visitAll history).visitBy a).2 :=
      List.foldl_append ..
    rw [hlast, hcells, visitBy_object]

end Cells

/-! ### Values without cells -/

private theorem Value.visitBy_of_ne {v : Value} (hv : ∀ cells, v ≠ .object cells) (a : Visit) :
    v.visitBy a = (none, v) := by
  cases v with
  | object cells => exact absurd rfl (hv cells)
  | int n | float x | text s => rfl

/-! ### Visits of a running program -/

namespace Machine

/-- Of two contents the second one stays. -/
private theorem setCell_setCell (m : Machine) (slot : Slot) (v w : Value) :
    (m.setCell slot v).setCell slot w = m.setCell slot w := by
  obtain ⟨globals, procedures, frames, output, blocks⟩ := m
  cases slot with
  | global i => simp only [setCell, List.set_set]
  | argument i | own i => cases frames <;> simp only [setCell, List.set_set]

end Machine

namespace Run

variable {p : Place} {m : Machine} {v : Value}

/-- Reading a field is a visit that stores nothing. -/
theorem visit_eq_visitBy (hpath : p.path ≠ []) (hv : m.cell? p.slot = some v) :
    visit p m =
      match v.visitBy ⟨p.key, Value.zero p.type, none⟩ with
      | (none, _) => .error (.fault (.notObject p.name)) m
      | (some found, later) => .ok found (m.setCell p.slot later) := by
  obtain ⟨segment, rest, hcons⟩ := List.exists_cons_of_ne_nil hpath
  simp only [visit, hv, hcons, Value.visitBy]
  cases v.visit? p.key (Value.zero p.type) <;> rfl

/-- Writing a field is a visit that stores what the type of the field keeps of a value. -/
theorem store_eq_visitBy (hpath : p.path ≠ []) (hv : m.cell? p.slot = some v) (w : Value) :
    store p w m =
      match v.visitBy ⟨p.key, Value.zero p.type, some (w.stored p.type)⟩ with
      | (none, _) => .error (.fault (.notObject p.name)) m
      | (some _, later) => .ok (w.stored p.type) (m.setCell p.slot later) := by
  obtain ⟨segment, rest, hcons⟩ := List.exists_cons_of_ne_nil hpath
  have hvisit := visit_eq_visitBy hpath hv
  simp only [Value.visitBy] at hvisit ⊢
  rw [store, bind_apply, hvisit]
  cases v.visit? p.key (Value.zero p.type) with
  | none => rfl
  | some found =>
    obtain ⟨content, grown⟩ := found
    have hoverwritten : overwrite p (w.stored p.type) (m.setCell p.slot grown) =
        m.setCell p.slot (grown.putField p.key (w.stored p.type)) := by
      simp only [overwrite, hcons, Machine.cell?_setCell hv, Machine.setCell_setCell]
    exact congrArg (EStateM.Result.ok (w.stored p.type)) hoverwritten

end Run

/-! ### The law -/

namespace Visit

/-- Field cells are a map in the order of first visits.

After any history of visits of an empty object its paths are distinct and stand in the order in
which they were visited first; the cell of a path holds the last value that was stored there, or
else the zero given at its first visit, and the next visit finds just that, or its own zero if it
is the first one. A visit, with a store or without one, changes no cell of another path, nor where
it stands, and adds none. A value that is no object answers nothing and stays as it is. The reads
and writes of fields in a running program are such visits of the content of a slot. -/
theorem cells_are_map :
    (∀ history : List Visit, ∃ cells : Cells,
      (Value.object []).visitAll history = .object cells ∧
        (cells.map (·.1)).Nodup ∧ cells.map (·.1) = (history.map (·.path)).eraseDups ∧
        (∀ path, cells.lookup path =
          (lastStored? history path).or (firstZero? history path)) ∧
        ∀ a : Visit, ((Value.object cells).visitBy a).1 =
          some (((lastStored? history a.path).or (firstZero? history a.path)).getD a.zero)) ∧
    (∀ (cells : Cells) (a : Visit), ∃ later : Cells,
      ((Value.object cells).visitBy a).2 = .object later ∧
        ∀ (i : Nat) (path : String) (v : Value), path ≠ a.path →
          (later[i]? = some (path, v) ↔ cells[i]? = some (path, v))) ∧
    (∀ v : Value, (∀ cells, v ≠ .object cells) → ∀ a : Visit, v.visitBy a = (none, v)) ∧
    ∀ (p : Place) (m : Machine) (v w : Value), p.path ≠ [] → m.cell? p.slot = some v →
      Run.visit p m =
        (match v.visitBy ⟨p.key, Value.zero p.type, none⟩ with
        | (none, _) => .error (.fault (.notObject p.name)) m
        | (some found, later) => .ok found (m.setCell p.slot later)) ∧
      Run.store p w m =
        (match v.visitBy ⟨p.key, Value.zero p.type, some (w.stored p.type)⟩ with
        | (none, _) => .error (.fault (.notObject p.name)) m
        | (some _, later) => .ok (w.stored p.type) (m.setCell p.slot later)) := by
  refine ⟨fun history => ?_, fun cells a => ?_, fun v hv a => Value.visitBy_of_ne hv a,
    fun p m v w hpath hv => ⟨Run.visit_eq_visitBy hpath hv, Run.store_eq_visitBy hpath hv w⟩⟩
  · obtain ⟨cells, hcells, hrecords⟩ := Cells.exists_records history
    refine ⟨cells, hcells, hrecords.nodup, hrecords.order, hrecords.content, fun a => ?_⟩
    rw [Cells.visitBy_object, hrecords.content]
    rfl
  · refine ⟨cells.after a, by rw [Cells.visitBy_object], fun i path v hpath => ?_⟩
    exact cells.getElem?_after_iff a hpath v i

/-- A path that another one begins with has a cell of its own. -/
theorem cells_are_map_dotted :
    let history : List Visit :=
      [⟨"a", .int 0, none⟩, ⟨"a.x", .int 0, some (.int 7)⟩, ⟨"a", .text "", some (.int 3)⟩]
    (∃ cells : Cells, (Value.object []).visitAll history = .object cells ∧
      cells.map (·.1) = ["a", "a.x"] ∧ cells.lookup "a" = some (.int 3) ∧
        cells.lookup "a.x" = some (.int 7)) ∧
      (Value.int 5).visitBy ⟨"a", .int 0, some (.int 3)⟩ = (none, .int 5) := by
  intro history
  obtain ⟨hhistories, -, hscalar, -⟩ := cells_are_map
  obtain ⟨cells, hcells, -, horder, hcontent, -⟩ := hhistories history
  exact ⟨⟨cells, hcells, horder.trans (by decide), hcontent "a", hcontent "a.x"⟩,
    hscalar _ (fun _ h => by cases h) _⟩

end Visit

end Litany
