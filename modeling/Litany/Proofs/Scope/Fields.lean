import Litany.Proofs.Grammar.Blame
import Litany.Proofs.Token.Spelling

/-!
# Field cells and their paths

An object keeps one cell for each path of fields, under a key that is the path with dots between its
names. A key belongs to one path only, because no field has a dot in its name: field names are read
from tokens, and a dot ends a name. `Names.Dotless` is this property of the tables. Parsing keeps
it, whether the text is accepted or not, and under it a key has one type
(`Names.Dotless.type_unique`).
-/

namespace Litany

/-- No field of a class has a dot in its name. -/
def Names.Dotless (names : Names) : Prop :=
  ∀ c ∈ names.classes, ∀ f ∈ c.fields, '.' ∉ f.name.toList

theorem Names.dotless_empty : Names.empty.Dotless := by
  intro c hc
  cases hc

/-- Fields that are named by spelled tokens have no dot in their names. -/
theorem NamedBy.dotless {tokens : List Token} {fields : List Field} (h : NamedBy tokens fields)
    (hspelled : ∀ t ∈ tokens, t.Spelled) : ∀ f ∈ fields, '.' ∉ f.name.toList := by
  intro f hf
  obtain ⟨⟨kind, lexeme, line⟩, ht, hident, rfl⟩ := h f hf
  cases kind with
  | ident name =>
    obtain ⟨hname, hdot⟩ := hspelled _ ht name rfl
    obtain rfl : f.name = name := hname
    exact hdot
  | _ => cases hident

/-- The classes that a text declares have no dot in the names of their fields, even if the text is
not accepted. -/
theorem Grammar.dotless_of_parse {fetch : Option Fetcher} {fetched : List String} {text : String}
    {stream : Stream} {names later : Names} {outcome : Except ParseFailure (List Stmt)}
    (hscan : (Stream.ofText fetch fetched text).outcome = .ok stream) (hnames : names.Dotless)
    (hparse : parse names stream = (outcome, later)) : later.Dotless := by
  intro c hc
  rcases (parse_adds hparse).classes hc with hold | hnamed
  · exact hnames c hold
  · exact hnamed.dotless (Stream.spelled_ofText hscan)

namespace Names.Dotless

variable {names : Names}

/-- There is no dot in any name of a path that leads somewhere. -/
theorem path (h : names.Dotless) {type found : CellType} {path : List String}
    (hfound : names.fieldType? type path = some found) :
    ∀ segment ∈ path, '.' ∉ segment.toList := by
  induction path generalizing type with
  | nil => simp
  | cons segment rest ih =>
    cases type with
    | scalar t => cases hfound
    | object number =>
      obtain ⟨c, hc, hfound⟩ := Option.bind_eq_some_iff.mp hfound
      obtain ⟨f, hf, hfound⟩ := Option.bind_eq_some_iff.mp hfound
      have hname : f.name = segment := by simpa using List.find?_some hf
      have hdot := h c (List.mem_of_getElem? hc) f (List.mem_of_find?_eq_some hf)
      exact List.forall_mem_cons.mpr ⟨hname ▸ hdot, ih hfound⟩

end Names.Dotless

/-- A key can be split at its dots into the names of its path. -/
private theorem splitOn_intercalate_path {path : List String} (hne : path ≠ [])
    (hdots : ∀ segment ∈ path, '.' ∉ segment.toList) :
    (".".intercalate path).toList.splitOn '.' = path.map String.toList := by
  rw [String.toList_intercalate]
  refine List.splitOn_intercalate '.' ?_ (by simpa using hne)
  intro l hl
  obtain ⟨segment, hsegment, rfl⟩ := List.mem_map.mp hl
  exact hdots segment hsegment

namespace Names.Dotless

variable {names : Names} {type found found' : CellType} {path path' : List String}

/-- Paths that lead somewhere are told apart by their keys. -/
theorem path_unique (h : names.Dotless) (hpath : path ≠ []) (hpath' : path' ≠ [])
    (hfound : names.fieldType? type path = some found)
    (hfound' : names.fieldType? type path' = some found')
    (hkey : ".".intercalate path = ".".intercalate path') : path = path' := by
  have hsplit := splitOn_intercalate_path hpath (h.path hfound)
  rw [hkey, splitOn_intercalate_path hpath' (h.path hfound')] at hsplit
  exact ((List.map_inj_right fun _ _ hab => String.toList_inj.mp hab).mp hsplit).symm

/-- So a key has one type. -/
theorem type_unique (h : names.Dotless) (hpath : path ≠ []) (hpath' : path' ≠ [])
    (hfound : names.fieldType? type path = some found)
    (hfound' : names.fieldType? type path' = some found')
    (hkey : ".".intercalate path = ".".intercalate path') : found = found' := by
  rw [h.path_unique hpath hpath' hfound hfound' hkey, hfound'] at hfound
  exact (Option.some.inj hfound).symm

end Names.Dotless

end Litany
