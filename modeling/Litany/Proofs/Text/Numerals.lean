import Litany.Proofs.Text.Directives
import Mathlib.Algebra.Ring.Int.Defs
import Mathlib.Data.List.DropRight

/-!
# Printed integers read back

An integer is printed as a numeral: in decimal with a sign, or its sixty-four bits without one, in
decimal or in hexadecimal. A placeholder may bring the numeral to a width, with spaces on either
side or with zeros behind the sign. Neither changes the number that is read from it
(`integers_read_back`), however the width is written and whatever flags stand in front of it.
-/

namespace Litany

/-! ### Reading numerals -/

namespace Numeral

/-- The digit that a character stands for in some base, in either case. -/
def digit? (base : Nat) (c : Char) : Option Nat :=
  ("0123456789abcdef".toList.take base).idxOf? c.toLower

/-- The number that a row of digits goes on to, behind the number of the digits in front. -/
def digits? (base : Nat) : Nat → List Char → Option Nat
  | n, [] => some n
  | n, c :: cs => (digit? base c).bind fun d => digits? base (base * n + d) cs

/-- A natural number in some base. It has at least one digit. -/
def natural? (base : Nat) : List Char → Option Nat
  | [] => none
  | cs => digits? base 0 cs

/-- An integer in decimal, perhaps with a minus sign in front. -/
def integer? : List Char → Option Int
  | '-' :: cs => (natural? 10 cs).map fun n : Nat => -(n : Int)
  | cs => (natural? 10 cs).map Int.ofNat

/-- The text without the spaces in front and behind. -/
def trimmed (cs : List Char) : List Char :=
  (cs.dropWhile (· == ' ')).rdropWhile (· == ' ')

example : natural? 16 "00fF".toList = some 255 ∧ integer? "-042".toList = some (-42) ∧
    integer? "".toList = none := by decide +kernel

private theorem digits?_append (base n : Nat) (cs ds : List Char) :
    digits? base n (cs ++ ds) = (digits? base n cs).bind fun m => digits? base m ds := by
  induction cs generalizing n with
  | nil => rfl
  | cons c cs ih =>
    rw [List.cons_append, digits?, digits?, Option.bind_assoc]
    simp only [ih]

/-- Zeros in front of a number do not change it. -/
private theorem digits?_zeros {base : Nat} (hbase : 0 < base) (k : Nat) (cs : List Char) :
    digits? base 0 (List.replicate k '0' ++ cs) = digits? base 0 cs := by
  have hzero : digit? base '0' = some 0 := by
    obtain ⟨b, rfl⟩ := Nat.exists_eq_add_one_of_ne_zero (Nat.ne_of_gt hbase)
    rfl
  induction k with
  | zero => rfl
  | succ k ih => rw [List.replicate_succ, List.cons_append, digits?, hzero, Option.bind_some,
      Nat.mul_zero, Nat.zero_add, ih]

/-- The digits of a number, each written in some way, read back. -/
theorem digits?_toDigits {base : Nat} (hbase : 1 < base) {write : Char → Char}
    (hwrite : ∀ d < base, digit? base (write d.digitChar) = some d) (n : Nat) :
    digits? base 0 ((Nat.toDigits base n).map write) = some n := by
  induction n using Nat.strongRecOn with
  | ind n ih =>
    by_cases hn : n < base
    · rw [Nat.toDigits_of_lt_base hn]
      simp [digits?, hwrite n hn]
    · have hle := Nat.le_of_not_lt hn
      have hlast := hwrite (n % base) (Nat.mod_lt n (by omega))
      rw [Nat.toDigits_of_base_le hbase hle, List.map_append, digits?_append,
        ih (n / base) (Nat.div_lt_self (by omega) hbase)]
      simp [digits?, hlast, Nat.div_add_mod]

/-- No minus sign and no space is a digit. -/
private theorem digit?_eq_none {base : Nat} {c : Char} (hc : c = '-' ∨ c = ' ') :
    digit? base c = none := by
  have hall : c.toLower ∉ "0123456789abcdef".toList := by
    rcases hc with rfl | rfl <;> decide +kernel
  have hnone : c.toLower ∉ "0123456789abcdef".toList.take base :=
    fun h => hall (List.mem_of_mem_take h)
  exact List.idxOf?_eq_none_iff.mpr hnone

private theorem isSome_digit?_of_mem {base : Nat} {cs : List Char} {n m : Nat}
    (h : digits? base n cs = some m) : ∀ c ∈ cs, (digit? base c).isSome := by
  induction cs generalizing n with
  | nil => simp
  | cons c cs ih =>
    obtain ⟨d, hd, hrest⟩ := Option.bind_eq_some_iff.mp h
    exact List.forall_mem_cons.mpr ⟨hd ▸ rfl, ih hrest⟩

private theorem ne_of_natural? {base : Nat} {cs : List Char} {n : Nat}
    (h : natural? base cs = some n) : ∀ c ∈ cs, c ≠ '-' ∧ c ≠ ' ' := by
  intro c hc
  have hdigit : (digit? base c).isSome := by
    cases cs with
    | nil => cases hc
    | cons d cs => exact isSome_digit?_of_mem h c hc
  constructor
  · rintro rfl
    rw [digit?_eq_none (Or.inl rfl)] at hdigit
    cases hdigit
  · rintro rfl
    rw [digit?_eq_none (Or.inr rfl)] at hdigit
    cases hdigit

private theorem natural?_toDigits (base : Nat) (write : Char → Char) (hbase : 1 < base)
    (hwrite : ∀ d < base, digit? base (write d.digitChar) = some d) (n : Nat) :
    natural? base ((Nat.toDigits base n).map write) = some n := by
  have hread := digits?_toDigits hbase hwrite n
  cases hdigits : (Nat.toDigits base n).map write with
  | nil => exact absurd (List.map_eq_nil_iff.mp hdigits) Nat.toDigits_ne_nil
  | cons c cs =>
    rw [hdigits] at hread
    exact hread

/-- The digits of the library, as they are. -/
private theorem natural?_digits {base : Nat} (hbase : 1 < base)
    (hwrite : ∀ d < base, digit? base d.digitChar = some d) (n : Nat) :
    natural? base (Nat.toDigits base n) = some n := by
  have hread := natural?_toDigits base id hbase hwrite n
  rwa [List.map_id] at hread

/-- What reads as a natural number is not empty and has no spaces. -/
private theorem solid_of_natural? {base : Nat} {cs : List Char} {n : Nat}
    (h : natural? base cs = some n) : cs ≠ [] ∧ ∀ c ∈ cs, c ≠ ' ' := by
  refine ⟨?_, fun c hc => (ne_of_natural? h c hc).2⟩
  rintro rfl
  cases h

/-- What reads as an integer is not empty and has no spaces. -/
private theorem solid_of_integer? {cs : List Char} {n : Int} (h : integer? cs = some n) :
    cs ≠ [] ∧ ∀ c ∈ cs, c ≠ ' ' := by
  unfold integer? at h
  split at h
  · obtain ⟨m, hm, -⟩ := Option.map_eq_some_iff.mp h
    have hdigits := (solid_of_natural? hm).2
    exact ⟨List.cons_ne_nil _ _, List.forall_mem_cons.mpr ⟨by decide, hdigits⟩⟩
  · obtain ⟨m, hm, -⟩ := Option.map_eq_some_iff.mp h
    exact solid_of_natural? hm

/-- The numeral with zeros in front of its digits. -/
def zeroFilled (k : Nat) : List Char → List Char
  | '-' :: digits => '-' :: (List.replicate k '0' ++ digits)
  | digits => List.replicate k '0' ++ digits

/-- Without a sign the zeros go in front of everything. -/
private theorem zeroFilled_of_ne {cs : List Char} (hsign : ∀ digits, cs ≠ '-' :: digits) (k : Nat) :
    zeroFilled k cs = List.replicate k '0' ++ cs := by
  unfold zeroFilled
  split
  · exact absurd rfl (hsign _)
  · rfl

private theorem ne_sign_of_natural? {base : Nat} {cs : List Char} {n : Nat}
    (h : natural? base cs = some n) : ∀ digits, cs ≠ '-' :: digits := by
  rintro digits rfl
  exact (ne_of_natural? h '-' List.mem_cons_self).1 rfl

private theorem natural?_zeros {base : Nat} (hbase : 0 < base) {cs : List Char} {n : Nat}
    (h : natural? base cs = some n) (k : Nat) :
    natural? base (List.replicate k '0' ++ cs) = some n := by
  cases cs with
  | nil => cases h
  | cons c cs =>
    have hread : digits? base 0 (List.replicate k '0' ++ c :: cs) = some n := by
      rw [digits?_zeros hbase]
      exact h
    cases hzeros : List.replicate k '0' ++ c :: cs with
    | nil => simp at hzeros
    | cons d ds =>
      rw [hzeros] at hread
      exact hread

/-- A row of digits without a sign is the natural number that it writes. -/
private theorem integer?_of_natural? {cs : List Char} {n : Nat} (h : natural? 10 cs = some n) :
    integer? cs = some (n : Int) := by
  have hsign := ne_sign_of_natural? h
  unfold integer?
  split
  · exact absurd rfl (hsign _)
  · rw [h]
    rfl

/-- Zeros behind the sign do not change an integer. -/
private theorem integer?_zeroFilled {cs : List Char} {n : Int} (h : integer? cs = some n)
    (k : Nat) : integer? (zeroFilled k cs) = some n := by
  unfold integer? at h
  split at h
  · rename_i digits
    obtain ⟨m, hm, rfl⟩ := Option.map_eq_some_iff.mp h
    change (natural? 10 (List.replicate k '0' ++ digits)).map _ = _
    rw [natural?_zeros (by decide) hm]
    rfl
  · obtain ⟨m, hm, rfl⟩ := Option.map_eq_some_iff.mp h
    rw [zeroFilled_of_ne (ne_sign_of_natural? hm)]
    exact integer?_of_natural? (natural?_zeros (by decide) hm k)

/-- A negative integer is written with its sign in front. -/
private theorem head?_of_integer? {cs : List Char} {n : Int} (h : integer? cs = some n)
    (hn : n < 0) : cs.head? = some '-' := by
  unfold integer? at h
  split at h
  · rfl
  · obtain ⟨m, -, hm⟩ := Option.map_eq_some_iff.mp h
    have hle : 0 ≤ Int.ofNat m := Int.natCast_nonneg m
    omega

private theorem integer?_signed (n : Int) : integer? (Decimal.signed n).toList = some n := by
  have hdigits : ∀ m : Nat, natural? 10 (Nat.repr m).toList = some m := by
    intro m
    rw [Nat.repr_eq_ofList_toDigits, String.toList_ofList]
    exact natural?_digits (by decide) (by decide +kernel) m
  unfold Decimal.signed
  split
  · rename_i hn
    have hminus : ("-" ++ Nat.repr n.natAbs).toList = '-' :: (Nat.repr n.natAbs).toList := by
      rw [String.toList_append]
      rfl
    rw [hminus, integer?, hdigits, Option.map_some]
    congr 1
    omega
  · rename_i hn
    rw [integer?_of_natural? (hdigits _)]
    congr 1
    omega

/-! ### Numerals at a width -/

section Width

variable {cs : List Char}

private theorem zeroFilled_zero (cs : List Char) : zeroFilled 0 cs = cs := by
  unfold zeroFilled
  split <;> rfl

private theorem length_zeroFilled (k : Nat) (cs : List Char) :
    (zeroFilled k cs).length = k + cs.length := by
  unfold zeroFilled
  split
  · simp only [List.length_cons, List.length_append, List.length_replicate]
    omega
  · rw [List.length_append, List.length_replicate]

private theorem ne_space_of_zeroFilled (hcs : ∀ c ∈ cs, c ≠ ' ') (k : Nat) :
    ∀ c ∈ zeroFilled k cs, c ≠ ' ' := by
  have hzeros : ∀ ds : List Char, (∀ c ∈ ds, c ≠ ' ') →
      ∀ c ∈ List.replicate k '0' ++ ds, c ≠ ' ' := by
    intro ds hds c hc
    rcases List.mem_append.mp hc with hzero | hdigit
    · rw [List.eq_of_mem_replicate hzero]
      decide
    · exact hds c hdigit
  unfold zeroFilled
  split
  · rename_i digits
    obtain ⟨hsign, hdigits⟩ := List.forall_mem_cons.mp hcs
    exact List.forall_mem_cons.mpr ⟨hsign, hzeros digits hdigits⟩
  · exact hzeros cs hcs

/-- A text that is not empty and has no spaces is what is left of it when some are put around. -/
private theorem trimmed_of_spaces (hne : cs ≠ []) (hcs : ∀ c ∈ cs, c ≠ ' ') (i j : Nat) :
    trimmed (List.replicate i ' ' ++ (cs ++ List.replicate j ' ')) = cs := by
  have hspaces : ∀ k, ∀ c ∈ List.replicate k ' ', (c == ' ') = true := by
    intro k c hc
    rw [List.eq_of_mem_replicate hc]
    rfl
  -- in either direction the text begins with a character that is no space
  have hstops : ∀ ds es : List Char, ds ≠ [] → (∀ c ∈ ds, c ≠ ' ') →
      Cut.Stops (· == ' ') (ds ++ es) := by
    intro ds es hds hmem
    obtain ⟨d, rest, rfl⟩ := List.exists_cons_of_ne_nil hds
    have hd := hmem d List.mem_cons_self
    exact Cut.stops_cons.mpr (beq_eq_false_iff_ne.mpr hd)
  have hreverse : cs.reverse ≠ [] := by
    rwa [ne_eq, List.reverse_eq_nil_iff]
  have hback := hstops cs.reverse [] hreverse fun c hc => hcs c (List.mem_reverse.mp hc)
  rw [List.append_nil] at hback
  rw [trimmed, Cut.dropWhile_run (hspaces i) (hstops cs _ hne hcs), List.rdropWhile,
    List.reverse_append, List.reverse_replicate, Cut.dropWhile_run (hspaces j) hback,
    List.reverse_reverse]

private theorem trimmed_eq_self (hne : cs ≠ []) (hcs : ∀ c ∈ cs, c ≠ ' ') : trimmed cs = cs := by
  have htrim := trimmed_of_spaces hne hcs 0 0
  rwa [List.replicate_zero, List.nil_append, List.append_nil] at htrim

end Width

end Numeral

namespace Template

open Numeral

/-- Spaces or zeros fill a text up to its width, on the side and at the place that the flags say. -/
private theorem pad_eq (spec : Spec) (cs : List Char) :
    pad spec cs =
      if spec.left then cs ++ List.replicate (spec.width - cs.length) ' '
      else if spec.zero then zeroFilled (spec.width - cs.length) cs
      else List.replicate (spec.width - cs.length) ' ' ++ cs := by
  unfold pad
  dsimp only
  generalize spec.width - cs.length = gap
  by_cases hgap : gap = 0
  · rw [if_pos hgap, hgap, zeroFilled_zero, List.replicate_zero, List.append_nil, List.nil_append,
      ite_self, ite_self]
  · rw [if_neg hgap]
    split
    · rfl
    · split
      · split
        · rfl
        · rename_i hsign
          rw [zeroFilled_of_ne fun digits hdigits => hsign digits hdigits]
      · rfl

/-- A text brought to a width has that many characters, unless it has more already. -/
private theorem length_pad (spec : Spec) (cs : List Char) :
    (pad spec cs).length = max cs.length spec.width := by
  rw [pad_eq]
  split
  · rw [List.length_append, List.length_replicate]
    omega
  · split
    · rw [length_zeroFilled]
      omega
    · rw [List.length_append, List.length_replicate]
      omega

/-- Without the spaces around it, a numeral brought to a width is the numeral itself, or has zeros
in front of its digits. -/
private theorem exists_trimmed_pad {cs : List Char} (hne : cs ≠ []) (hcs : ∀ c ∈ cs, c ≠ ' ')
    (spec : Spec) : ∃ k, trimmed (pad spec cs) = zeroFilled k cs := by
  rw [pad_eq]
  split
  · have htrim := trimmed_of_spaces hne hcs 0 (spec.width - cs.length)
    rw [List.replicate_zero, List.nil_append] at htrim
    exact ⟨0, by rw [htrim, zeroFilled_zero]⟩
  · split
    · have hfilled : zeroFilled (spec.width - cs.length) cs ≠ [] := by
        rw [← List.length_pos_iff, length_zeroFilled]
        have := List.length_pos_iff.mpr hne
        omega
      exact ⟨_, trimmed_eq_self hfilled (ne_space_of_zeroFilled hcs _)⟩
    · have htrim := trimmed_of_spaces hne hcs (spec.width - cs.length) 0
      rw [List.replicate_zero, List.append_nil] at htrim
      exact ⟨0, by rw [htrim, zeroFilled_zero]⟩

/-! ### Placeholders for integers -/

/-- The letters of the placeholders for integers. -/
def integerLetters : List Char :=
  ['d', 'i', 'u', 'x', 'X']

/-- Leading zeros do not change the value of digits. -/
private theorem value_zeros (k : Nat) (digits : List Char) :
    Decimal.value (List.replicate k '0' ++ digits) = Decimal.value digits := by
  induction k with
  | zero => rfl
  | succ k ih => exact ih

/-- Digits are a row of zeros and digits that do not begin with one. -/
private theorem exists_zeros (width : List Char) : ∃ k digits,
    width = List.replicate k '0' ++ digits ∧ Cut.Stops (· == '0') digits := by
  have hzeros : width.takeWhile (· == '0') =
      List.replicate (width.takeWhile (· == '0')).length '0' :=
    List.eq_replicate_of_mem fun c hc => eq_of_beq (Cut.all_takeWhile width c hc)
  have hwhole := List.takeWhile_append_dropWhile (p := (· == '0')) (l := width)
  rw [hzeros] at hwhole
  exact ⟨_, _, hwhole.symm, Cut.stops_dropWhile width⟩

/-- Any flags, digits and places in front of the letter of an integer make a placeholder. Zeros in
front of the width count as flags, which does not change the width. -/
private theorem exists_placeholder {flags width : List Char} {places : Option (List Char)}
    {letter : Char} (hflags : ∀ c ∈ flags, isFlag c = true) (hwidth : ∀ c ∈ width, c.isDigit = true)
    (hplaces : ∀ digits ∈ places, ∀ c ∈ digits, c.isDigit = true)
    (hletter : letter ∈ integerLetters) :
    ∃ d : Directive, d.text = '%' :: flags ++ width ++ Spelling.pointed places ++ [letter] ∧
      d.letter = letter ∧ d.spelling.spec.width = capped width := by
  obtain ⟨k, digits, rfl, hdigits⟩ := exists_zeros width
  -- the zeros go to the flags: they change what the flags say, not the width
  have hcapped : capped digits = capped (List.replicate k '0' ++ digits) := by
    rw [capped, capped, value_zeros]
  have hzeros : ∀ c ∈ flags ++ List.replicate k '0', isFlag c = true := by
    intro c hc
    rcases List.mem_append.mp hc with hflag | hzero
    · exact hflags c hflag
    · rw [List.eq_of_mem_replicate hzero]
      rfl
  have hstops : Cut.Stops isFlag digits := by
    intro c hc
    have hdigit := hwidth c (List.mem_append_right _ (List.mem_of_head? hc))
    have hminus : c ≠ '-' := by
      rintro rfl
      cases hdigit
    have hzero : (c == '0') = false := hdigits c hc
    rw [isFlag, hzero, beq_eq_false_iff_ne.mpr hminus]
    rfl
  have hends : ∀ c ∈ integerLetters, (c.isDigit || c == '.') = false ∧ c.isDigit = false ∧
      isFlag c = false := by
    simp [integerLetters, isFlag, Char.isDigit]
  obtain ⟨hpoint, hdigit, hflag⟩ := hends letter hletter
  let s : Spelling := ⟨flags ++ List.replicate k '0', digits, places, hzeros, hstops,
    fun c hc => hwidth c (List.mem_append_right _ hc), hplaces⟩
  have hs : s.Ends [letter] := by
    cases places with
    | none => exact ⟨Cut.stops_cons.mpr hpoint, fun _ => Cut.stops_cons.mpr hflag⟩
    | some digits => exact Cut.stops_cons.mpr hdigit
  refine ⟨⟨s, letter, hs⟩, ?_, rfl, hcapped⟩
  simp [Directive.text, Spelling.text, s]

/-! ### Integers -/

/-- The conversions of integers do not look at the specification. -/
def plain : Spec := ⟨false, false, 0, none⟩

/-- The numeral that an integer is printed as under a letter. -/
def numeral (letter : Char) (n : Int64) : List Char :=
  convert ((Conversion.ofChar? letter).getD .display) plain (.int n)

/-- What a placeholder for integers prints is its numeral, brought to the width. -/
private theorem shown_int {d : Directive} (hd : d.letter ∈ integerLetters) (n : Int64) :
    d.shown (.int n) = pad d.spelling.spec (numeral d.letter n) := by
  have hconvert : ∀ c ∈ integerLetters, ∀ spec : Spec,
      convert ((Conversion.ofChar? c).getD .display) spec (.int n) = numeral c n := by
    intro c hc spec
    simp only [integerLetters, List.mem_cons, List.not_mem_nil, or_false] at hc
    rcases hc with rfl | rfl | rfl | rfl | rfl <;> rfl
  rw [Directive.shown, hconvert d.letter hd]

private theorem bits_eq (n : Int64) : bits n = (n.toInt % 2 ^ 64).toNat := by
  have hint : n.toInt = n.toBitVec.toInt := rfl
  -- the bits as a natural number, and the integer as their balanced remainder
  have hbits : bits n = n.toBitVec.toNat := rfl
  have hlt := n.toBitVec.isLt
  have hsize : ((2 ^ 64 : Nat) : Int) = 2 ^ 64 := rfl
  have hsmall : (n.toBitVec.toNat : Int) < (2 ^ 64 : Nat) := Int.ofNat_lt.mpr hlt
  rw [hint, hbits, BitVec.toInt_eq_toNat_bmod, ← hsize, Int.bmod_emod,
    Int.emod_eq_of_lt (Int.natCast_nonneg _) hsmall, Int.toNat_natCast]

/-- What the printed form of an integer is read as: the integer itself in signed decimal, and its
sixty-four bits otherwise. -/
structure ReadsBack (letter : Char) (n : Int64) (cs : List Char) : Prop where
  signed : letter ∈ ['d', 'i'] → integer? cs = some n.toInt
  unsigned : letter = 'u' → natural? 10 cs = some (n.toInt % 2 ^ 64).toNat
  hexadecimal : letter ∈ ['x', 'X'] → natural? 16 cs = some (n.toInt % 2 ^ 64).toNat

private theorem integer?_numeral {letter : Char} (hletter : letter ∈ ['d', 'i']) (n : Int64) :
    integer? (numeral letter n) = some n.toInt := by
  have hread := integer?_signed n.toInt
  simp only [List.mem_cons, List.not_mem_nil, or_false] at hletter
  rcases hletter with rfl | rfl
  · exact hread
  · exact hread

private theorem natural?_numeral_decimal (n : Int64) :
    natural? 10 (numeral 'u' n) = some (bits n) :=
  natural?_digits (by decide) (by decide +kernel) (bits n)

private theorem natural?_numeral_hexadecimal {letter : Char} (hletter : letter ∈ ['x', 'X'])
    (n : Int64) : natural? 16 (numeral letter n) = some (bits n) := by
  have hlower : natural? 16 (Nat.toDigits 16 (bits n)) = some (bits n) :=
    natural?_digits (by decide) (by decide +kernel) (bits n)
  have hupper := natural?_toDigits 16 Char.toUpper (by decide) (by decide +kernel) (bits n)
  simp only [List.mem_cons, List.not_mem_nil, or_false] at hletter
  rcases hletter with rfl | rfl
  · exact hlower
  · exact hupper

/-- A numeral is not empty, and has no space in it. -/
private theorem numeral_solid {letter : Char} (hletter : letter ∈ integerLetters) (n : Int64) :
    numeral letter n ≠ [] ∧ ∀ c ∈ numeral letter n, c ≠ ' ' := by
  simp only [integerLetters, List.mem_cons, List.not_mem_nil, or_false] at hletter
  rcases hletter with rfl | rfl | rfl | rfl | rfl
  · exact solid_of_integer? (integer?_numeral (by decide) n)
  · exact solid_of_integer? (integer?_numeral (by decide) n)
  · exact solid_of_natural? (natural?_numeral_decimal n)
  · exact solid_of_natural? (natural?_numeral_hexadecimal (by decide) n)
  · exact solid_of_natural? (natural?_numeral_hexadecimal (by decide) n)

/-- Zeros in front of the digits of a numeral do not change what it reads as. -/
private theorem readsBack_zeroFilled (letter : Char) (n : Int64) (k : Nat) :
    ReadsBack letter n (zeroFilled k (numeral letter n)) := by
  have hnatural : ∀ {base : Nat} {cs : List Char}, 0 < base → natural? base cs = some (bits n) →
      natural? base (zeroFilled k cs) = some (n.toInt % 2 ^ 64).toNat := by
    intro base cs hbase h
    rw [zeroFilled_of_ne (ne_sign_of_natural? h), natural?_zeros hbase h, bits_eq]
  refine ⟨fun h => integer?_zeroFilled (integer?_numeral h n) k, ?_, fun h => ?_⟩
  · rintro rfl
    exact hnatural (by decide) (natural?_numeral_decimal n)
  · exact hnatural (by decide) (natural?_numeral_hexadecimal h n)

/-- A template that is a single placeholder for an integer prints its numeral at its width. -/
theorem format_integer (n : Int64) (flags width : List Char) (places : Option (List Char))
    (letter : Char) (hflags : ∀ c ∈ flags, isFlag c = true)
    (hwidth : ∀ c ∈ width, c.isDigit = true)
    (hplaces : ∀ digits ∈ places, ∀ c ∈ digits, c.isDigit = true)
    (hletter : letter ∈ integerLetters) :
    ∃ spec : Spec, spec.width = capped width ∧
      (format (String.ofList ('%' :: flags ++ width ++ Spelling.pointed places ++ [letter]))
        [.int n]).toList = pad spec (numeral letter n) := by
  obtain ⟨d, htext, rfl, hspec⟩ := exists_placeholder hflags hwidth hplaces hletter
  have htakes : d.takes = true := by
    have hletters : ∀ c ∈ integerLetters, letters.contains c = true := by
      simp [integerLetters, letters]
    exact hletters d.letter hletter
  have hprinted := format_directive htakes [] [.int n]
  have hnothing : format (String.ofList []) ([.int n].drop 1) = "" := by
    rw [format, String.toList_ofList, pieces]
    rfl
  rw [List.append_nil, hnothing, String.append_empty] at hprinted
  refine ⟨d.spelling.spec, hspec, ?_⟩
  rw [← htext, hprinted, String.toList_ofList]
  exact shown_int hletter n

/-- Printed integers read back. Whatever flags, width and places a placeholder has, it prints an
integer on as many characters as its numeral needs, or as its width asks for up to the limit if
these are more. Without the spaces around it this reads back as the integer, or as its sixty-four
bits; a minus sign stays in front. -/
theorem integers_read_back (n : Int64) (flags width : List Char) (places : Option (List Char))
    (letter : Char) (hflags : ∀ c ∈ flags, c = '-' ∨ c = '0')
    (hwidth : ∀ c ∈ width, c.isDigit = true)
    (hplaces : ∀ digits ∈ places, ∀ c ∈ digits, c.isDigit = true)
    (hletter : letter ∈ integerLetters) :
    let written := (format (String.ofList
      ('%' :: flags ++ width ++ Spelling.pointed places ++ [letter])) [.int n]).toList
    let natural := (format (String.ofList ['%', letter]) [.int n]).toList
    written.length = max natural.length (min (Decimal.value width) 4096) ∧
      ReadsBack letter n (trimmed written) ∧
      (n.toInt < 0 → letter ∈ ['d', 'i'] → (trimmed written).head? = some '-') := by
  intro written natural
  have hflag : ∀ c ∈ flags, isFlag c = true := by
    intro c hc
    rcases hflags c hc with rfl | rfl <;> rfl
  obtain ⟨spec, hspec, hprinted⟩ := format_integer n flags width places letter hflag hwidth
    hplaces hletter
  have hwritten : written = pad spec (numeral letter n) := hprinted
  -- without flags and width the placeholder prints the numeral as it is
  have hnatural : natural.length = (numeral letter n).length := by
    obtain ⟨bare, hbare, hprinted⟩ := format_integer n [] [] none letter (by simp) (by simp)
      (by simp) hletter
    have hlength := congrArg List.length hprinted
    rw [length_pad, hbare] at hlength
    exact hlength.trans (Nat.max_zero _)
  obtain ⟨hne, hspaces⟩ := numeral_solid hletter n
  obtain ⟨k, htrimmed⟩ := exists_trimmed_pad hne hspaces spec
  have hreads : ReadsBack letter n (trimmed written) := by
    rw [hwritten, htrimmed]
    exact readsBack_zeroFilled letter n k
  refine ⟨?_, hreads, fun hnegative hsigned => ?_⟩
  · rw [hwritten, hnatural, length_pad, hspec, capped, Nat.min_comm]
    rfl
  · exact head?_of_integer? (hreads.signed hsigned) hnegative

/-- The least integer, under flags that repeat and contradict each other and a width that begins
with zeros; and the same integer in hexadecimal, in more columns than there may be. -/
theorem integers_read_back_least :
    let decimal := (format "%0-00023.7d" [.int Int64.minValue]).toList
    let hexadecimal := (format "%099999999999999999999X" [.int Int64.minValue]).toList
    (decimal.length = 23 ∧ ReadsBack 'd' Int64.minValue (trimmed decimal) ∧
      (trimmed decimal).head? = some '-') ∧
    hexadecimal.length = 4096 ∧ ReadsBack 'X' Int64.minValue (trimmed hexadecimal) := by
  obtain ⟨hlength, hreads, hsign⟩ := integers_read_back Int64.minValue ['0', '-', '0', '0']
    ['0', '2', '3'] (some ['7']) 'd' (by simp) (by simp) (by simp) (by decide)
  obtain ⟨hlength', hreads', -⟩ := integers_read_back Int64.minValue ['0']
    (List.replicate 20 '9') none 'X' (by simp) (by simp) (by simp) (by decide)
  have hnatural : (format "%d" [.int Int64.minValue]).toList.length = 20 := by decide +kernel
  have hnatural' : (format "%X" [.int Int64.minValue]).toList.length = 16 := by decide +kernel
  refine ⟨⟨?_, hreads, hsign (by decide) (by decide)⟩, ?_, hreads'⟩
  · exact hlength.trans (by rw [show String.ofList ['%', 'd'] = "%d" from rfl, hnatural]; decide)
  · exact hlength'.trans
      (by rw [show String.ofList ['%', 'X'] = "%X" from rfl, hnatural']; decide +kernel)

end Template

end Litany
