import Mathlib.Data.Nat.Bitwise
import Mathlib.Tactic.IntervalCases
import Mathlib.Tactic.SplitIfs
import Nupkux.Drivers.TtySafety

/-!
# Colours of a terminal

What the parameters of `'m'` mean: each selects a foreground, a background, the two defaults, or
nothing. `tty_select_graphic_rendition` packs the selected background over the one there was,
because the byte it takes for the foreground has the background in its high nibble. So the
backgrounds that are selected one after the other are mixed until both colours are reset.
-/

namespace Nupkux

/-- The colours of an attribute. -/
structure Colours where
  fg : Nat
  bg : Nat
  deriving DecidableEq

/-- What a parameter selects. -/
inductive Selection where
  | defaults
  | foreground (colour : Nat)
  | background (colour : Nat)
  | nothing
  deriving DecidableEq

/-- The selection of a number. -/
def selection (n : Int) : Selection :=
  if n = 0 then .defaults
  else if 30 ≤ n ∧ n ≤ 37 then .foreground (ansiColMap (n - 30).toNat)
  else if n = 39 then .foreground 7
  else if 40 ≤ n ∧ n ≤ 47 then .background (ansiColMap (n - 40).toNat)
  else if n = 49 then .background 0
  else if 90 ≤ n ∧ n ≤ 97 then .foreground (ansiColMap (n - 90).toNat ||| 8)
  else if n = 99 then .foreground (7 ||| 8)
  else if 100 ≤ n ∧ n ≤ 107 then .background (ansiColMap (n - 100).toNat ||| 8)
  else if n = 109 then .background (0 ||| 8)
  else .nothing

/-- Both colours are nibbles. -/
structure Colours.Nibbles (c : Colours) : Prop where
  fg : c.fg < 16
  bg : c.bg < 16

/-- The attribute of two colours. -/
def Colours.attr (c : Colours) : Nat := (c.bg <<< 12) ||| (c.fg <<< 8)

/-- The colours after a selection. -/
def Colours.select (c : Colours) : Selection → Colours
  | .defaults => ⟨7, 0⟩
  | .foreground colour => { c with fg := colour }
  | .background colour => { c with bg := colour }
  | .nothing => c

/-- The colours after a selection that leaves the bits of the old background. -/
def Colours.mix (c : Colours) : Selection → Colours
  | .defaults => ⟨7, 0⟩
  | .foreground colour => { c with fg := colour }
  | .background colour => { c with bg := colour ||| c.bg }
  | .nothing => c

/-- The decimal number of a parameter, its other characters skipped. -/
def decimal (str : CString) : Nat :=
  str.foldl (fun n c => if isDigit c then 10 * n + (c.toNat - 48) else n) 0

/-- The parameters of a string, which semicolons separate. -/
def separated (params : CString) : List CString := params.splitOnP (· == 59)

/-- What the parameters ask for. -/
def selectionsAsked (params : CString) : List Selection :=
  (separated params).map fun param => selection (decimal param)

/-- What the parameters are read as. -/
def selectionsRead (params : CString) : List Selection :=
  (separated params).map fun param => selection (atoi param)

/-- The backgrounds after a selection, the ones before the last reset left out. -/
def addBackground (backgrounds : List Nat) : Selection → List Nat
  | .defaults => [0]
  | .background colour => backgrounds ++ [colour]
  | _ => backgrounds

/-- The backgrounds since the last reset, with the one there was at it or at the beginning. -/
def backgroundsSince (bg : Nat) (selections : List Selection) : List Nat :=
  selections.foldl addBackground [bg]

/-- The attribute after the command is that of what the parameters ask for. -/
def FollowsMeaning (t : Tty) (c : Colours) : Prop :=
  t.interpretEscape.attr =
    ((selectionsAsked (t.cut t.escInd).params).foldl Colours.select c).attr

/-- What the parameters are read as selects the colours they ask for, with no bit of another
background since the last reset. -/
structure Unmixed (c : Colours) (params : CString) : Prop where
  foreground : ((selectionsRead params).foldl Colours.select c).fg =
    ((selectionsAsked params).foldl Colours.select c).fg
  within : ∀ b ∈ backgroundsSince c.bg (selectionsRead params),
    b ||| ((selectionsAsked params).foldl Colours.select c).bg =
      ((selectionsAsked params).foldl Colours.select c).bg
  covered : ∀ i, ((selectionsAsked params).foldl Colours.select c).bg.testBit i = true →
    ∃ b ∈ backgroundsSince c.bg (selectionsRead params), b.testBit i = true

variable {c : Colours} {n : Int} {colour : Nat} {selections : List Selection} {params : CString}

/-! ## One selection -/

/-- A colour of the map is a nibble without brightness. -/
theorem ansiColMap_lt (k : Nat) : ansiColMap k < 8 := by
  by_cases small : k < 8
  · interval_cases k <;> decide
  · rw [ansiColMap, List.getD_eq_default]
    · decide
    · exact Nat.not_lt.mp small

/-- A bright colour is a nibble. -/
theorem bright_lt {k : Nat} (small : k < 8) : k ||| 8 < 16 :=
  Nat.or_lt_two_pow (n := 4) (Nat.lt_trans small (by decide)) (by decide)

/-- What a number selects is a nibble. -/
theorem selection_lt (n : Int)
    (chosen : selection n = .foreground colour ∨ selection n = .background colour) :
    colour < 16 := by
  have plain (k : Nat) : ansiColMap k < 16 := Nat.lt_trans (ansiColMap_lt k) (by decide)
  have bright (k : Nat) : ansiColMap k ||| 8 < 16 := bright_lt (ansiColMap_lt k)
  unfold selection at chosen
  split_ifs at chosen
  all_goals
    simp only [Selection.foreground.injEq, Selection.background.injEq, or_false, false_or]
      at chosen
  all_goals
    subst chosen
    first
    | exact plain _
    | exact bright _
    | decide

/-- The attribute of two nibbles. -/
theorem Colours.Nibbles.attr_eq (nibbles : c.Nibbles) : c.attr = c.bg * 4096 + c.fg * 256 := by
  have small : c.fg <<< 8 < 2 ^ 12 := by
    rw [Nat.shiftLeft_eq]
    have := nibbles.fg
    omega
  rw [Colours.attr, ← Nat.shiftLeft_add_eq_or_of_lt small, Nat.shiftLeft_eq, Nat.shiftLeft_eq]

/-- Different colours have different attributes. -/
theorem Colours.attr_inj {c' : Colours} (nibbles : c.Nibbles) (nibbles' : c'.Nibbles) :
    c.attr = c'.attr ↔ c.fg = c'.fg ∧ c.bg = c'.bg := by
  rw [nibbles.attr_eq, nibbles'.attr_eq]
  have fg := nibbles.fg
  have fg' := nibbles'.fg
  omega

/-- A selection leaves nibbles. -/
theorem Colours.Nibbles.select (nibbles : c.Nibbles) (n : Int) :
    (c.select (selection n)).Nibbles := by
  have defaults : (⟨7, 0⟩ : Colours).Nibbles := ⟨by decide, by decide⟩
  cases chosen : selection n with
  | defaults => exact defaults
  | foreground colour => exact ⟨selection_lt n (.inl chosen), nibbles.bg⟩
  | background colour => exact ⟨nibbles.fg, selection_lt n (.inr chosen)⟩
  | nothing => exact nibbles

/-- So does one that mixes. -/
theorem Colours.Nibbles.mix (nibbles : c.Nibbles) (n : Int) :
    (c.mix (selection n)).Nibbles := by
  have defaults : (⟨7, 0⟩ : Colours).Nibbles := ⟨by decide, by decide⟩
  cases chosen : selection n with
  | defaults => exact defaults
  | foreground colour => exact ⟨selection_lt n (.inl chosen), nibbles.bg⟩
  | background colour =>
    have mixed : colour ||| c.bg < 2 ^ 4 :=
      Nat.or_lt_two_pow (selection_lt n (.inr chosen)) nibbles.bg
    exact ⟨nibbles.fg, mixed⟩
  | nothing => exact nibbles

/-- The two bytes that are packed. -/
def packed (fg bg : Nat) : Nat := ((bg <<< 12) ||| (fg <<< 8)) % ushortWidth

/-- The attribute by what the number selects. -/
theorem selectGraphicRendition_eq (attr : Nat) (n : Int) :
    selectGraphicRendition attr n =
      match selection n with
      | .defaults => packed 7 0
      | .foreground colour => packed colour ((attr >>> 12) % 256)
      | .background colour => packed ((attr >>> 8) % 256) colour
      | .nothing => packed ((attr >>> 8) % 256) ((attr >>> 12) % 256) := by
  unfold selectGraphicRendition selection
  split_ifs <;> rfl

/-- Two nibbles are packed to their attribute. -/
theorem Colours.Nibbles.packed_eq (nibbles : c.Nibbles) : packed c.fg c.bg = c.attr := by
  have fg := nibbles.fg
  have bg := nibbles.bg
  rw [packed, ← Colours.attr, nibbles.attr_eq]
  apply Nat.mod_eq_of_lt
  simp only [ushortWidth]
  omega

/-- The background of an attribute. -/
theorem Colours.Nibbles.background_eq (nibbles : c.Nibbles) : (c.attr >>> 12) % 256 = c.bg := by
  have fg := nibbles.fg
  have bg := nibbles.bg
  rw [nibbles.attr_eq, Nat.shiftRight_eq_div_pow]
  omega

/-- The byte that is taken for the foreground. -/
theorem Colours.Nibbles.foreground_eq (nibbles : c.Nibbles) :
    (c.attr >>> 8) % 256 = (c.bg <<< 4) ||| c.fg := by
  have fg := nibbles.fg
  have bg := nibbles.bg
  rw [nibbles.attr_eq, Nat.shiftRight_eq_div_pow, ← Nat.shiftLeft_add_eq_or_of_lt (i := 4) fg,
    Nat.shiftLeft_eq]
  omega

/-- The background in that byte is packed over the selected one. -/
theorem packed_mix (fg bg colour : Nat) :
    packed ((bg <<< 4) ||| fg) colour = packed fg (colour ||| bg) := by
  rw [packed, packed, Nat.shiftLeft_or_distrib, Nat.shiftLeft_or_distrib, ← Nat.shiftLeft_add,
    Nat.or_assoc]

/-- `tty_select_graphic_rendition` mixes a selected background with the one there was. -/
theorem selectGraphicRendition_attr (nibbles : c.Nibbles) (n : Int) :
    selectGraphicRendition c.attr n = (c.mix (selection n)).attr := by
  have result := nibbles.mix n
  rw [selectGraphicRendition_eq, nibbles.background_eq, nibbles.foreground_eq, packed_mix,
    Nat.or_self, ← result.packed_eq]
  cases selection n with
  | defaults => rfl
  | foreground colour => rfl
  | background colour => exact packed_mix ..
  | nothing => rfl

/-! ## Lists of selections -/

/-- All bits of some numbers. -/
def union (bs : List Nat) : Nat := bs.foldl (· ||| ·) 0

/-- The bits of one number more. -/
theorem union_concat (bs : List Nat) (b : Nat) : union (bs ++ [b]) = union bs ||| b := by
  rw [union, List.foldl_append]
  rfl

/-- A bit of some numbers is one of one of them. -/
theorem testBit_union (bs : List Nat) (i : Nat) :
    (union bs).testBit i = true ↔ ∃ b ∈ bs, b.testBit i = true := by
  induction bs using List.reverseRecOn with
  | nil => simp [union]
  | append_singleton bs b ih =>
    rw [union_concat, Nat.testBit_or, Bool.or_eq_true, ih]
    constructor
    · rintro (⟨b', member, set⟩ | set)
      · exact ⟨b', List.mem_append_left _ member, set⟩
      · exact ⟨b, List.mem_append_right _ (List.mem_singleton_self b), set⟩
    · rintro ⟨b', member, set⟩
      rcases List.mem_append.mp member with before | last
      · exact .inl ⟨b', before, set⟩
      · rw [List.mem_singleton.mp last] at set
        exact .inr set

/-- A number has the bits of another one if they change nothing in it. -/
theorem or_eq_iff {b whole : Nat} :
    b ||| whole = whole ↔ ∀ i, b.testBit i = true → whole.testBit i = true := by
  constructor
  · intro same i set
    rw [← same, Nat.testBit_or, set, Bool.true_or]
  · intro contained
    apply Nat.eq_of_testBit_eq
    intro i
    rw [Nat.testBit_or]
    cases set : b.testBit i with
    | false => exact Bool.false_or _
    | true => rw [contained i set, Bool.or_self]

/-- Some numbers have exactly the bits of one if it contains them all and has no others. -/
theorem union_eq_iff {bs : List Nat} {whole : Nat} :
    union bs = whole ↔ (∀ b ∈ bs, b ||| whole = whole) ∧
      ∀ i, whole.testBit i = true → ∃ b ∈ bs, b.testBit i = true := by
  constructor
  · rintro rfl
    constructor
    · intro b member
      rw [or_eq_iff]
      intro i set
      exact (testBit_union bs i).mpr ⟨b, member, set⟩
    · intro i
      exact (testBit_union bs i).mp
  · rintro ⟨contained, covered⟩
    apply Nat.eq_of_testBit_eq
    intro i
    rw [Bool.eq_iff_iff, testBit_union]
    constructor
    · rintro ⟨b, member, set⟩
      exact or_eq_iff.mp (contained b member) i set
    · exact covered i

/-- Mixing keeps the foreground that is selected. -/
theorem fg_foldl_mix {c' : Colours} (selections : List Selection) (same : c.fg = c'.fg) :
    (selections.foldl Colours.mix c).fg = (selections.foldl Colours.select c').fg := by
  induction selections generalizing c c' with
  | nil => exact same
  | cons chosen selections ih =>
    apply ih
    cases chosen with
    | defaults => rfl
    | foreground => rfl
    | background => exact same
    | nothing => exact same

/-- Mixing gathers the backgrounds since the last reset. -/
theorem bg_foldl_mix {bs : List Nat} (selections : List Selection) (mixed : c.bg = union bs) :
    (selections.foldl Colours.mix c).bg = union (selections.foldl addBackground bs) := by
  induction selections generalizing c bs with
  | nil => exact mixed
  | cons chosen selections ih =>
    apply ih
    cases chosen with
    | defaults => rfl
    | foreground => exact mixed
    | background colour =>
      rw [addBackground, union_concat, ← mixed]
      exact Nat.or_comm ..
    | nothing => exact mixed

/-- The background that is selected is the last one since the last reset. -/
theorem bg_foldl_select {bs : List Nat} (selections : List Selection)
    (last : bs.getLast? = some c.bg) :
    (selections.foldl addBackground bs).getLast? =
      some (selections.foldl Colours.select c).bg := by
  induction selections generalizing c bs with
  | nil => exact last
  | cons chosen selections ih =>
    apply ih
    cases chosen with
    | defaults => rfl
    | foreground => exact last
    | background => exact List.getLast?_concat
    | nothing => exact last

/-- Selections leave nibbles. -/
theorem Colours.Nibbles.foldl_select (nibbles : c.Nibbles) (numbers : List Int) :
    ((numbers.map selection).foldl Colours.select c).Nibbles := by
  induction numbers generalizing c with
  | nil => exact nibbles
  | cons n numbers ih => exact ih (nibbles.select n)

/-- So do selections that mix. -/
theorem Colours.Nibbles.foldl_mix (nibbles : c.Nibbles) (numbers : List Int) :
    ((numbers.map selection).foldl Colours.mix c).Nibbles := by
  induction numbers generalizing c with
  | nil => exact nibbles
  | cons n numbers ih => exact ih (nibbles.mix n)

/-- The attribute after some numbers. -/
theorem foldl_selectGraphicRendition (nibbles : c.Nibbles) (numbers : List Int) :
    numbers.foldl selectGraphicRendition c.attr =
      ((numbers.map selection).foldl Colours.mix c).attr := by
  induction numbers generalizing c with
  | nil => rfl
  | cons n numbers ih =>
    rw [List.foldl_cons, selectGraphicRendition_attr nibbles, ih (nibbles.mix n)]
    rfl

/-! ## Parameters -/

/-- `atoi` reads the decimal number as an `int`. -/
theorem atoi_eq (str : CString) : atoi str = toInt (decimal str) := by
  induction str using List.reverseRecOn with
  | nil => rfl
  | append_singleton str c ih =>
    unfold atoi decimal at *
    rw [List.foldl_append, List.foldl_append, ih]
    simp only [List.foldl_cons, List.foldl_nil]
    by_cases digit : isDigit c = true
    · have low : 48 ≤ c.toNat := by
        simp only [isDigit, Bool.and_eq_true, decide_eq_true_eq, UInt8.le_iff_toNat_le] at digit
        exact digit.1
      rw [if_pos digit, if_pos digit]
      simp only [toInt]
      push_cast
      omega
    · rw [if_neg digit, if_neg digit]

/-- A decimal number that is an `int` is read as it is. -/
theorem atoi_of_lt {str : CString} (small : decimal str < 2147483648) : atoi str = decimal str := by
  rw [atoi_eq, toInt]
  omega

/-- `'m'` applies its parameters in order. -/
theorem attr_renditions (t : Tty) (param : CString) (i : Int) (params : CString) :
    (t.renditions param i params).attr =
      ((params.splitOnPPrepend (· == 59) param.reverse).map atoi).foldl selectGraphicRendition
        t.attr := by
  induction params generalizing t param i with
  | nil =>
    rw [List.splitOnPPrepend_nil, List.reverse_reverse]
    rfl
  | cons c params ih =>
    rw [Tty.renditions]
    by_cases semicolon : c = 59
    · rw [if_pos semicolon, List.splitOnPPrepend_cons_pos (by simpa using semicolon), ih,
        List.reverse_reverse]
      rfl
    · rw [if_neg semicolon, List.splitOnPPrepend_cons_neg (by simpa using semicolon), ih,
        List.reverse_append]
      rfl

/-- What is read is a list of numbers. -/
theorem selectionsRead_eq (params : CString) :
    selectionsRead params = ((separated params).map atoi).map selection := by
  rw [List.map_map]
  rfl

/-- So is what is asked for. -/
theorem selectionsAsked_eq (params : CString) :
    selectionsAsked params =
      ((separated params).map fun param => (decimal param : Int)).map selection := by
  rw [List.map_map]
  rfl

/-- The attribute after `'m'`. -/
theorem attr_interpretEscape {t : Tty} (nibbles : c.Nibbles) (colours : t.attr = c.attr)
    (command : t.escapeSeq.cell t.escInd = 109) :
    t.interpretEscape.attr =
      ((selectionsRead (t.cut t.escInd).params).foldl Colours.mix c).attr := by
  have run : t.interpretEscape = (t.cut t.escInd).renditions [] 1 (t.cut t.escInd).params := by
    unfold Tty.interpretEscape
    rw [command]
    rfl
  have before : (t.cut t.escInd).attr = c.attr := colours
  rw [run, attr_renditions, before, List.reverse_nil, List.splitOnPPrepend_nil_right,
    foldl_selectGraphicRendition nibbles, selectionsRead_eq]
  rfl

/-- The attribute follows the meaning of the parameters if and only if no other background is mixed
into the one they ask for. -/
theorem followsMeaning_iff {t : Tty} (nibbles : c.Nibbles) (colours : t.attr = c.attr)
    (command : t.escapeSeq.cell t.escInd = 109) :
    FollowsMeaning t c ↔ Unmixed c (t.cut t.escInd).params := by
  generalize params_eq : (t.cut t.escInd).params = params
  have mixed : ((selectionsRead params).foldl Colours.mix c).Nibbles := by
    rw [selectionsRead_eq]
    exact nibbles.foldl_mix _
  have meant : ((selectionsAsked params).foldl Colours.select c).Nibbles := by
    rw [selectionsAsked_eq]
    exact nibbles.foldl_select _
  have fg := fg_foldl_mix (selectionsRead params) (rfl : c.fg = c.fg)
  have bg : ((selectionsRead params).foldl Colours.mix c).bg =
      union (backgroundsSince c.bg (selectionsRead params)) :=
    bg_foldl_mix _ (by simp [union])
  rw [FollowsMeaning, attr_interpretEscape nibbles colours command, params_eq,
    Colours.attr_inj mixed meant, fg, bg, union_eq_iff]
  constructor
  · rintro ⟨foreground, within, covered⟩
    exact ⟨foreground, within, covered⟩
  · intro unmixed
    exact ⟨unmixed.foreground, unmixed.within, unmixed.covered⟩

/-- With numbers that are read as they are, what counts is that the background that is selected last
contains those since the last reset. -/
theorem unmixed_iff (small : ∀ param ∈ separated params, decimal param < 2147483648) :
    Unmixed c params ↔
      ∀ b ∈ backgroundsSince c.bg (selectionsAsked params),
        b ||| ((selectionsAsked params).foldl Colours.select c).bg =
          ((selectionsAsked params).foldl Colours.select c).bg := by
  have same : selectionsRead params = selectionsAsked params := by
    apply List.map_congr_left
    intro param member
    rw [atoi_of_lt (small param member)]
  constructor
  · intro unmixed
    rw [← same]
    exact same ▸ unmixed.within
  · intro within
    have last : (backgroundsSince c.bg (selectionsAsked params)).getLast? = _ :=
      bg_foldl_select (c := c) (selectionsAsked params) rfl
    constructor
    · rw [same]
    · rw [same]
      exact within
    · intro i set
      rw [same]
      exact ⟨_, List.mem_of_getLast? last, set⟩

/-- A terminal that has got `"\e[31;44"` and is given the command. -/
def blueBackground : Tty :=
  ((createTty {} 0).doTtyWrite [27, 91, 51, 49, 59, 52, 52]).stored 109

/-- Its attribute follows the meaning, since its background was black. -/
theorem followsMeaning_blueBackground : FollowsMeaning blueBackground ⟨7, 0⟩ := by
  apply (followsMeaning_iff ⟨by decide, by decide⟩ (by decide +kernel) (by decide +kernel)).mpr
  rw [unmixed_iff (by decide +kernel)]
  decide +kernel

/-- A terminal that has got `"\e[41;42"` and is given the command. -/
def greenOverRed : Tty :=
  ((createTty {} 0).doTtyWrite [27, 91, 52, 49, 59, 52, 50]).stored 109

/-- Red and then green as the background make brown. -/
theorem followsMeaning_not :
    greenOverRed.attr = (⟨7, 0⟩ : Colours).attr ∧
      greenOverRed.escapeSeq.cell greenOverRed.escInd = 109 ∧
      ¬FollowsMeaning greenOverRed ⟨7, 0⟩ := by
  refine ⟨by decide +kernel, by decide +kernel, ?_⟩
  rw [FollowsMeaning]
  decide +kernel

end Nupkux
