import Nupkux.BlockStrings
import Nupkux.Lib.Runs

/-!
# Tokens of a string

`strtok_save` skips delimiters in passes over the delimiter string until a pass changes nothing,
takes the token to end at the first of the places found for each delimiter, stores a NUL there and
keeps the place behind it for the next call. The delimiter string may be a part of the text: a NUL
that is stored in it then empties it, behind the last token.
-/

namespace Nupkux

namespace BlockMemory

/-- The loop of `strlen`. -/
def strlenLoop (m : BlockMemory) : Nat → Pointer → Nat
  | 0, _ => 0
  | steps + 1, str => if m.load str ≠ 0 then m.strlenLoop steps (str.plus 1) + 1 else 0

/-- `strlen`. -/
def strlen (m : BlockMemory) (str : Pointer) : Nat := m.strlenLoop uintWidth str

/-- A pass over the delimiters: `s` and `skip` when it ends. -/
def skipPass (m : BlockMemory) : Nat → Pointer → Pointer → Bool → Pointer × Bool
  | 0, _, s, skip => (s, skip)
  | steps + 1, del, s, skip =>
    if m.load del ≠ 0 ∧ m.load s ≠ 0 then
      if m.load s = m.load del then m.skipPass steps (del.plus 1) (s.plus 1) false
      else m.skipPass steps (del.plus 1) s skip
    else (s, skip)

/-- The loop `while (!skip)`: `s` when it ends, in so many passes. -/
def skipLoop (m : BlockMemory) (delim : Pointer) : Nat → Pointer → Option Pointer
  | 0, _ => none
  | passes + 1, s =>
    let pass := m.skipPass uintWidth delim s true
    if pass.2 then some pass.1 else m.skipLoop delim passes pass.1

/-- The loop that looks for the end of the token. -/
def endLoop (m : BlockMemory) (s : Pointer) : Nat → Pointer → Pointer → Pointer
  | 0, _, tmp => tmp
  | steps + 1, del, tmp =>
    if m.load del ≠ 0 then
      let tmp :=
        match m.strchr s (m.load del) with
        | some occ => if occ.index < tmp.index then occ else tmp
        | none => tmp
      m.endLoop s steps (del.plus 1) tmp
    else tmp

/-- What `strtok_save` returns, `*ptr` and the memory behind it. -/
structure Strtok where
  token : Option Pointer
  ptr : Option Pointer
  mem : BlockMemory

/-- `strtok_save`, with so many passes that skip. -/
def strtokSave (m : BlockMemory) (passes : Nat) (s : Option Pointer) (delim : Option Pointer)
    (ptr : Option Pointer) : Option Strtok :=
  match delim with
  | none => some ⟨s, ptr, m⟩
  | some delim =>
    if m.load delim = 0 then some ⟨s, ptr, m⟩
    else
      match s.or ptr with
      | none => some ⟨none, ptr, m⟩
      | some s => do
        let s ← m.skipLoop delim passes s
        if m.load s = 0 then some ⟨none, ptr, m⟩
        else
          let tmp := m.endLoop s uintWidth delim (s.plus (m.strlen s))
          if m.load tmp ≠ 0 then some ⟨some s, some (tmp.plus 1), m.store tmp 0⟩
          else some ⟨some s, none, m⟩

/-- The calls up to the first 0, of which all but the first are for the null pointer: what they
return before it, and the memory behind them. -/
def strtokCalls (passes : Nat) (delim : Option Pointer) :
    Nat → BlockMemory → Option Pointer → Option Pointer → Option (List Pointer × BlockMemory)
  | 0, _, _, _ => none
  | calls + 1, m, s, ptr => do
    let called ← m.strtokSave passes s delim ptr
    match called.token with
    | none => some ([], called.mem)
    | some token =>
      let later ← strtokCalls passes delim calls called.mem none called.ptr
      some (token :: later.1, later.2)

end BlockMemory

variable {m m' : BlockMemory} {p q : Pointer} {text d w r u rest : CString} {steps : Nat}

/-- A pointer is moved twice. -/
theorem Pointer.plus_plus (p : Pointer) (i j : Int) : (p.plus i).plus j = p.plus (i + j) := by
  simp only [plus, Int.add_assoc]

/-- A pointer that is not moved. -/
theorem Pointer.plus_zero (p : Pointer) : p.plus 0 = p := by
  simp only [plus, Int.add_zero]

/-- A string behind a part of it. -/
theorem Spells.plus {b : Nat} (spells : Spells (m p.block) p.index (w ++ rest))
    (length : w.length = b) :
    Spells (m (p.plus b).block) (p.plus b).index rest := by
  subst length
  exact spells.append

/-- `strlen`. -/
theorem BlockMemory.strlenLoop_eq (spells : Spells (m p.block) p.index w)
    (enough : w.length < steps) : m.strlenLoop steps p = w.length := by
  induction w generalizing p steps with
  | nil =>
    obtain ⟨steps, rfl⟩ := Nat.exists_eq_add_of_lt enough
    have nul : ¬m.load p ≠ 0 := not_not.mpr spells
    rw [strlenLoop, if_neg nul]
    rfl
  | cons c w ih =>
    cases steps with
    | zero => cases enough
    | succ steps =>
      obtain ⟨first, nonzero, later⟩ := spells
      have more : m.load p ≠ 0 := fun nul => nonzero (first.symm.trans nul)
      rw [strlenLoop, if_pos more, ih (p := p.plus 1) later (Nat.lt_of_succ_lt_succ enough)]
      rfl

/-- A pass over the delimiters skips some of them, or finds that none comes next. -/
theorem BlockMemory.skipPass_spec (delims : Spells (m q.block) q.index d)
    (spells : Spells (m p.block) p.index rest) (enough : d.length < steps) (skip : Bool) :
    ∃ n ≤ rest.length, (∀ c ∈ rest.take n, c ∈ d) ∧
      m.skipPass steps q p skip = (p.plus n, skip && n == 0) ∧
      (n = 0 → ∀ c ∈ rest.head?, c ∉ d) := by
  induction d generalizing q p rest steps skip with
  | nil =>
    obtain ⟨steps, rfl⟩ := Nat.exists_eq_add_of_lt enough
    have stops : ¬(m.load q ≠ 0 ∧ m.load p ≠ 0) := fun both => both.1 delims
    refine ⟨0, Nat.zero_le _, by simp, ?_, fun _ c _ => List.not_mem_nil⟩
    rw [skipPass, if_neg stops]
    simp [Pointer.plus]
  | cons c d ih =>
    cases steps with
    | zero => cases enough
    | succ steps =>
      obtain ⟨first, nonzero, later⟩ := delims
      have delimiter : m.load q = c := first
      have enough' := Nat.lt_of_succ_lt_succ enough
      cases rest with
      | nil =>
        have stops : ¬(m.load q ≠ 0 ∧ m.load p ≠ 0) := fun both => both.2 spells
        refine ⟨0, Nat.le_refl _, by simp, ?_, fun _ c member => by simp at member⟩
        rw [skipPass, if_neg stops]
        simp [Pointer.plus]
      | cons x rest =>
        obtain ⟨char, letter, behind⟩ := id spells
        have here : m.load p = x := char
        have goesOn : m.load q ≠ 0 ∧ m.load p ≠ 0 := by
          rw [delimiter, here]
          exact ⟨nonzero, letter⟩
        rw [skipPass, if_pos goesOn, delimiter, here]
        by_cases same : x = c
        · obtain ⟨n, inside, all, pass, _⟩ := ih (q := q.plus 1) (p := p.plus 1) later behind
            enough' false
          refine ⟨n + 1, Nat.succ_le_succ inside, ?_, ?_, fun zero => ?_⟩
          · intro y member
            rw [List.take_succ_cons] at member
            rcases List.mem_cons.mp member with rfl | other
            · exact same ▸ List.mem_cons_self
            · exact List.mem_cons_of_mem _ (all y other)
          · rw [if_pos same, pass, Pointer.plus_plus, Int.add_comm]
            simp
          · exact absurd zero (Nat.succ_ne_zero n)
        · obtain ⟨n, inside, all, pass, none⟩ := ih (q := q.plus 1) (p := p) later
            spells enough' skip
          refine ⟨n, inside, fun y member => List.mem_cons_of_mem _ (all y member), ?_, ?_⟩
          · rw [if_neg same, pass]
          · intro zero y member
            obtain rfl := Option.some.inj member
            rw [List.mem_cons, not_or]
            exact ⟨same, none zero _ rfl⟩

/-- The passes skip all delimiters that come next. -/
theorem BlockMemory.skipLoop_spec {passes : Nat} (delims : Spells (m q.block) q.index d)
    (short : d.length < uintWidth) (spells : Spells (m p.block) p.index (u ++ rest))
    (all : ∀ c ∈ u, c ∈ d) (stop : ∀ c ∈ rest.head?, c ∉ d) (enough : u.length < passes) :
    m.skipLoop q passes p = some (p.plus u.length) := by
  induction passes generalizing p u with
  | zero => cases enough
  | succ passes ih =>
    obtain ⟨n, inside, skipped, pass, none⟩ := skipPass_spec delims spells short true
    rw [skipLoop, pass]
    by_cases zero : n = 0
    · subst zero
      have nothing : u = [] := by
        cases u with
        | nil => rfl
        | cons c u => exact absurd (all c List.mem_cons_self) (none rfl c rfl)
      subst nothing
      rfl
    · have within : n ≤ u.length := by
        by_contra past
        obtain ⟨more, rfl⟩ := Nat.exists_eq_add_of_lt (Nat.lt_of_not_le past)
        cases rest with
        | nil =>
          rw [List.append_nil] at inside
          omega
        | cons c rest =>
          refine stop c rfl (skipped c ?_)
          rw [List.take_append, Nat.add_assoc, Nat.add_sub_cancel_left, List.take_succ_cons]
          exact List.mem_append_right _ List.mem_cons_self
      have length : (u.take n).length = n := List.length_take_of_le within
      have parts : u ++ rest = u.take n ++ (u.drop n ++ rest) := by
        rw [← List.append_assoc, List.take_append_drop]
      have later := ih (p := p.plus n) (u := u.drop n) ((parts ▸ spells).plus length)
        (fun c member => all c (List.mem_of_mem_drop member)) (by rw [List.length_drop]; omega)
      have more : (true && n == 0) = false := by simp [zero]
      simp only [more, Bool.false_eq_true, if_false]
      rw [later, Pointer.plus_plus, List.length_drop]
      congr 2
      omega

/-- The first place of a character is not in a part without it. -/
theorem length_le_of_not_mem {c : UInt8} (parts : u ++ c :: rest = w ++ r) (absent : c ∉ w) :
    w.length ≤ u.length := by
  rcases List.append_eq_append_iff.mp parts with ⟨more, rfl, tail⟩ | ⟨more, rfl, _⟩
  · cases more with
    | nil => simp
    | cons x more =>
      rw [List.cons_append] at tail
      obtain rfl := (List.cons.inj tail).1
      exact absurd (List.mem_append_right _ List.mem_cons_self) absent
  · simp

/-- The place for the end of the token is that of the first delimiter at last. -/
theorem BlockMemory.endLoop_spec (delims : Spells (m q.block) q.index d)
    (spells : Spells (m p.block) p.index (w ++ r)) (short : (w ++ r).length < uintWidth)
    (free : ∀ c ∈ w, c ∉ d) (enough : d.length < steps) {t : Nat} (behind : w.length ≤ t) :
    ∃ t' : Nat, w.length ≤ t' ∧ m.endLoop p steps q (p.plus t) = p.plus t' ∧
      ((t = w.length ∨ ∃ c ∈ r.head?, c ∈ d) → t' = w.length) := by
  induction d generalizing q steps t with
  | nil =>
    obtain ⟨steps, rfl⟩ := Nat.exists_eq_add_of_lt enough
    have nul : ¬m.load q ≠ 0 := not_not.mpr delims
    refine ⟨t, behind, by rw [endLoop, if_neg nul], ?_⟩
    rintro (same | ⟨c, _, member⟩)
    · exact same
    · cases member
  | cons c d ih =>
    cases steps with
    | zero => cases enough
    | succ steps =>
      obtain ⟨first, nonzero, later⟩ := delims
      have delimiter : m.load q = c := first
      have more : m.load q ≠ 0 := by rwa [delimiter]
      have absent : c ∉ w := fun member => free c member List.mem_cons_self
      have next {t : Nat} (behind : w.length ≤ t) := ih (q := q.plus 1) (t := t) later
        (fun x member other => free x member (List.mem_cons_of_mem _ other))
        (Nat.lt_of_succ_lt_succ enough) behind
      rw [endLoop, if_pos more, delimiter]
      by_cases occurs : c ∈ w ++ r
      · obtain ⟨v, z, parts, before⟩ := List.eq_append_cons_of_mem occurs
        have place := strchr_some (parts ▸ spells) before
          (Nat.lt_of_le_of_lt (by rw [parts]; simp) short)
        have low := length_le_of_not_mem parts.symm absent
        have order : (p.plus v.length).index < (p.plus t).index ↔ v.length < t := by
          simp only [Pointer.plus]
          omega
        have chosen : (if (p.plus v.length).index < (p.plus t).index then p.plus v.length
            else p.plus t) = p.plus (min v.length t : Nat) := by
          by_cases less : v.length < t
          · rw [if_pos (order.mpr less), Nat.min_eq_left (Nat.le_of_lt less)]
          · rw [if_neg fun before => less (order.mp before),
              Nat.min_eq_right (Nat.le_of_not_lt less)]
        obtain ⟨t', low', run, exact_⟩ := next (Nat.le_min.mpr ⟨low, behind⟩)
        simp only [place, chosen]
        refine ⟨t', low', run, fun found => exact_ ?_⟩
        rcases found with same | ⟨x, head, member⟩
        · exact .inl (by omega)
        · rcases List.mem_cons.mp member with rfl | other
          · obtain ⟨z', rfl⟩ := List.head?_eq_some_iff.mp head
            have high := length_le_of_not_mem parts before
            exact .inl (by omega)
          · exact .inr ⟨x, head, other⟩
      · have none := strchr_none spells occurs short
        obtain ⟨t', low', run, exact_⟩ := next behind
        simp only [none]
        refine ⟨t', low', run, fun found => exact_ ?_⟩
        rcases found with same | ⟨x, head, member⟩
        · exact .inl same
        · rcases List.mem_cons.mp member with rfl | other
          · obtain ⟨z, rfl⟩ := List.head?_eq_some_iff.mp head
            exact absurd (List.mem_append_right _ List.mem_cons_self) occurs
          · exact .inr ⟨x, head, other⟩

/-- A string that is not empty does not begin with a NUL. -/
theorem Spells.load_ne (spells : Spells (m p.block) p.index d) (some_ : d ≠ []) : m.load p ≠ 0 := by
  cases d with
  | nil => exact absurd rfl some_
  | cons c d => exact fun nul => spells.2.1 (spells.1.symm.trans nul)

/-- The end of a token. -/
theorem BlockMemory.endLoop_eq (delims : Spells (m q.block) q.index d)
    (spells : Spells (m p.block) p.index (w ++ r)) (few : d.length < uintWidth)
    (short : (w ++ r).length < uintWidth) (free : ∀ c ∈ w, c ∉ d) (ends : ∀ c ∈ r.head?, c ∈ d) :
    m.endLoop p uintWidth q (p.plus (m.strlen p)) = p.plus w.length := by
  have length : m.strlen p = (w ++ r).length := strlenLoop_eq spells short
  have behind : w.length ≤ (w ++ r).length := by simp
  obtain ⟨t, _, run, exact_⟩ := endLoop_spec delims spells short free few behind
  rw [length, run, exact_]
  cases r with
  | nil => exact .inl (by rw [List.append_nil])
  | cons c r => exact .inr ⟨c, rfl, ends c rfl⟩

/-- A string begins with delimiters, a run of other characters, and a delimiter or the end. -/
theorem exists_parts (d rest : CString) :
    ∃ u w r, rest = u ++ (w ++ r) ∧ (∀ c ∈ u, c ∈ d) ∧ (∀ c ∈ w, c ∉ d) ∧
      (∀ c ∈ r.head?, c ∈ d) ∧ (w = [] → r = []) := by
  induction rest with
  | nil => exact ⟨[], [], [], rfl, by simp, by simp, by simp, fun _ => rfl⟩
  | cons c rest ih =>
    obtain ⟨u, w, r, rfl, all, free, ends, whole⟩ := ih
    by_cases delimiter : c ∈ d
    · refine ⟨c :: u, w, r, rfl, ?_, free, ends, whole⟩
      exact fun x member => (List.mem_cons.mp member).elim (fun same => same ▸ delimiter) (all x)
    · cases u with
      | nil =>
        refine ⟨[], c :: w, r, rfl, by simp, fun x member => ?_, ends, fun none => ?_⟩
        · exact (List.mem_cons.mp member).elim (fun same => same ▸ delimiter) (free x)
        · exact absurd none (List.cons_ne_nil c w)
      | cons x u =>
        refine ⟨[], [c], x :: u ++ (w ++ r), rfl, by simp, ?_, ?_, fun none => ?_⟩
        · exact fun y member => List.mem_singleton.mp member ▸ delimiter
        · exact fun y member => Option.some.inj member ▸ all x List.mem_cons_self
        · exact absurd none (List.cons_ne_nil c [])

section Call

variable {s ptr : Option Pointer} {passes : Nat} (delims : Spells (m q.block) q.index d)
  (some_ : d ≠ []) (few : d.length < uintWidth)
  (spells : Spells (m p.block) p.index (u ++ (w ++ r)))
  (short : (u ++ (w ++ r)).length < uintWidth) (all : ∀ c ∈ u, c ∈ d) (free : ∀ c ∈ w, c ∉ d)
  (ends : ∀ c ∈ r.head?, c ∈ d) (whole : w = [] → r = []) (enough : u.length < passes)
  (from_ : s.or ptr = some p)
include delims some_ few spells short all free ends whole enough from_

/-- A call of `strtok_save`, given what comes next. -/
theorem BlockMemory.strtokSave_eq : m.strtokSave passes s (some q) ptr =
    some (if w = [] then ⟨none, ptr, m⟩
      else if r = [] then ⟨some (p.plus u.length), none, m⟩
      else ⟨some (p.plus u.length), some (p.plus (u.length + w.length + 1)),
        m.store (p.plus (u.length + w.length)) 0⟩) := by
  have delimiter : m.load q ≠ 0 := delims.load_ne some_
  have stop : ∀ c ∈ (w ++ r).head?, c ∉ d := by
    intro c member
    cases w with
    | nil =>
      rw [whole rfl] at member
      cases member
    | cons x w => exact free c (by simpa using Or.inl (Option.some.inj member).symm)
  have skipped := skipLoop_spec delims few spells all stop enough
  have behind : Spells (m (p.plus u.length).block) (p.plus u.length).index (w ++ r) :=
    spells.plus rfl
  have room : (w ++ r).length < uintWidth := by
    rw [List.length_append] at short
    omega
  have last := endLoop_eq delims behind few room free ends
  have ended : Spells (m ((p.plus u.length).plus w.length).block)
      ((p.plus u.length).plus w.length).index r := behind.plus rfl
  simp only [strtokSave, if_neg delimiter, from_, skipped, Option.bind_eq_bind, Option.bind_some,
    last]
  cases w with
  | nil =>
    obtain rfl := whole rfl
    have nul : m.load (p.plus u.length) = 0 := behind
    rw [if_pos nul, if_pos rfl]
  | cons x w =>
    have letter : ¬m.load (p.plus u.length) = 0 := behind.load_ne (List.cons_ne_nil _ _)
    rw [if_neg letter, if_neg (List.cons_ne_nil x w)]
    cases r with
    | nil =>
      have nul : ¬m.load ((p.plus u.length).plus (x :: w).length) ≠ 0 := not_not.mpr ended
      rw [if_neg nul, if_pos rfl]
    | cons c r =>
      have more : m.load ((p.plus u.length).plus (x :: w).length) ≠ 0 :=
        ended.load_ne (List.cons_ne_nil c r)
      rw [if_pos more, if_neg (List.cons_ne_nil c r)]
      simp only [Pointer.plus_plus, Int.add_assoc]

end Call

/-- What the calls from a place of a string on return and store: the tokens are the runs, each with
its text in memory, and NULs are stored over delimiters only. -/
structure Tokenised (m m' : BlockMemory) (s : Pointer) (text d : CString) (k : Nat)
    (tokens : List Pointer) : Prop where
  runs : ∃ runs, Runs.Lists (· ∈ d) text k runs ∧ tokens = runs.map (fun r => s.plus r.1) ∧
    ∀ r ∈ runs, Spells (m' s.block) (s.index + r.1) ((text.drop r.1).take r.2)
  blocks : ∀ b ≠ s.block, m' b = m b
  stored : ∃ stored, (m' s.block).written = stored ++ (m s.block).written ∧
    (∀ j ∈ stored, (m' s.block).cell j = 0 ∧
      ∃ i : Nat, k ≤ i ∧ j = s.index + i ∧ Runs.SepAt (· ∈ d) text i) ∧
    ∀ j, j ∉ stored → (m' s.block).cell j = (m s.block).cell j

/-- The call behind the last token. -/
theorem BlockMemory.strtokSave_null (delims : Spells (m q.block) q.index d) (some_ : d ≠ [])
    (passes : Nat) : m.strtokSave passes none (some q) none = some ⟨none, none, m⟩ := by
  have delimiter : m.load q ≠ 0 := delims.load_ne some_
  simp only [strtokSave, if_neg delimiter, Option.or_none]

/-- A call with an empty delimiter string. -/
theorem BlockMemory.strtokSave_empty (empty : m.load q = 0) (passes : Nat)
    (s ptr : Option Pointer) : m.strtokSave passes s (some q) ptr = some ⟨s, ptr, m⟩ := by
  simp only [strtokSave, if_pos empty]

/-- Two strings that share a place are the same from there on. -/
theorem Spells.drop_eq {region : Region UInt8} {a b : Int} {i j : Nat}
    (spells : Spells region a text) (delims : Spells region b d) (inside : i ≤ text.length)
    (inside' : j ≤ d.length)
    (meet : a + i = b + j) : text.drop i = d.drop j := by
  have first : Spells region (a + i) (text.drop i) := by
    have parts := List.take_append_drop i text
    have length : (text.take i).length = i := List.length_take_of_le inside
    rw [← parts] at spells
    simpa only [length] using spells.append
  have second : Spells region (b + j) (d.drop j) := by
    have parts := List.take_append_drop j d
    have length : (d.take j).length = j := List.length_take_of_le inside'
    rw [← parts] at delims
    simpa only [length] using delims.append
  have room : (text.drop i).length < text.length + d.length + 1 := by
    rw [List.length_drop]
    omega
  have room' : (d.drop j).length < text.length + d.length + 1 := by
    rw [List.length_drop]
    omega
  rw [← first.text room, meet, second.text room']

/-- A delimiter string that reaches to the place behind a character of the text that is no
delimiter begins there, and the text behind it consists of delimiters. -/
theorem Spells.shared {region : Region UInt8} {a b : Int} {i : Nat} (spells : Spells region a text)
    (delims : Spells region b d) (letter : Runs.LetterAt (· ∈ d) text i)
    (low : b ≤ a + (i + 1 : Nat)) (high : a + (i + 1 : Nat) ≤ b + d.length) :
    b = a + (i + 1 : Nat) ∧ ∀ j, i < j → j < text.length → Runs.SepAt (· ∈ d) text j := by
  obtain ⟨n, meet⟩ := Int.eq_ofNat_of_zero_le (Int.sub_nonneg_of_le low)
  have inside := letter.lt
  have within : n ≤ d.length := by omega
  have tail : text.drop (i + 1) = d.drop n := spells.drop_eq delims inside within (by omega)
  constructor
  · by_contra differ
    have before : text.drop i = d.drop (n - 1) :=
      spells.drop_eq delims (Nat.le_of_lt inside) (by omega) (by omega)
    obtain ⟨c, here, outside⟩ := letter
    have first : (text.drop i)[0]? = some c := by rwa [List.getElem?_drop]
    rw [before] at first
    exact outside (List.mem_of_mem_drop (List.mem_of_getElem? first))
  · intro j behind upTo
    obtain ⟨more, rfl⟩ := Nat.exists_eq_add_of_le (Nat.succ_le_of_lt behind)
    refine ⟨text[i.succ + more], List.getElem?_eq_getElem upTo, ?_⟩
    have place : (text.drop (i + 1))[more]? = some text[i.succ + more] := by
      rw [List.getElem?_drop, List.getElem?_eq_getElem upTo]
    rw [tail] at place
    exact List.mem_of_mem_drop (List.mem_of_getElem? place)

/-- Nothing is returned and stored. -/
theorem Tokenised.nil {s : Pointer} {k : Nat} (none : Runs.Lists (· ∈ d) text k []) :
    Tokenised m m s text d k [] := by
  refine ⟨⟨[], none, rfl, fun r member => absurd member List.not_mem_nil⟩, fun b _ => rfl, [], rfl,
    fun j member => absurd member List.not_mem_nil, fun j _ => rfl⟩

/-- The calls from a place of a string on that begins or has a delimiter before it. -/
theorem BlockMemory.strtokCalls_spec {s : Pointer} {k n passes : Nat} {arg ptr : Option Pointer}
    (delims : Spells (m q.block) q.index d) (some_ : d ≠ []) (few : d.length < uintWidth)
    (apart : ∀ i, Runs.LetterAt (· ∈ d) text i → q.block = s.block →
      q.index ≤ s.index + (i + 1 : Nat) → s.index + (i + 1 : Nat) ≤ q.index + d.length →
      q.index = s.index + (i + 1 : Nat) ∧
        ∀ j, i < j → j < text.length → Runs.SepAt (· ∈ d) text j)
    (short : text.length < uintWidth) (enough : text.length < passes)
    (inside : k ≤ text.length) (start : k = 0 ∨ Runs.SepAt (· ∈ d) text (k - 1))
    (spells : Spells (m s.block) (s.index + k) (text.drop k)) (from_ : arg.or ptr = some (s.plus k))
    (near : text.length < k + n) :
    ∃ calls tokens m', strtokCalls passes (some q) calls m arg ptr = some (tokens, m') ∧
      Tokenised m m' s text d k tokens := by
  induction n generalizing k m arg ptr with
  | zero => omega
  | succ n ih =>
    obtain ⟨u, w, r, parts, all, free, ends, whole⟩ := exists_parts d (text.drop k)
    have size : (text.drop k).length = u.length + (w.length + r.length) := by
      rw [parts, List.length_append, List.length_append]
    rw [List.length_drop] at size
    have called := strtokSave_eq delims some_ few (p := s.plus k) (parts ▸ spells)
      (by rw [← parts, List.length_drop]; omega) all free ends whole
      (show u.length < passes by omega) from_
    have skipped (j : Nat) (low : k ≤ j) (high : j < k + u.length) : Runs.SepAt (· ∈ d) text j :=
      Runs.sepAt_of_part (u := []) parts all (by simpa using low) (by simpa using high)
    have letters (j : Nat) (low : k + u.length ≤ j) (high : j < k + u.length + w.length) :
        Runs.LetterAt (· ∈ d) text j :=
      Runs.letterAt_of_part (parts.trans (List.append_assoc ..).symm) free low high
    cases w with
    | nil =>
      obtain rfl := whole rfl
      rw [if_pos rfl] at called
      refine ⟨1, [], m, ?_, .nil (Runs.lists_nil fun j low high => skipped j low ?_)⟩
      · rw [strtokCalls, called]
        rfl
      · simp only [List.length_nil] at size
        omega
    | cons x w =>
      rw [if_neg (List.cons_ne_nil x w)] at called
      have length : 0 < (x :: w).length := Nat.succ_pos _
      generalize x :: w = w at *
      have text_eq :
          (text.drop (k + u.length)).take (k + u.length + w.length - (k + u.length)) = w := by
        rw [Nat.add_sub_cancel_left, ← List.drop_drop, parts, List.drop_left, List.take_left]
      have place : s.index + (k + u.length : Nat) = s.index + k + u.length := by omega
      have token : Spells (m s.block) (s.index + (k + u.length : Nat)) (w ++ r) := by
        rw [place]
        exact (parts ▸ spells).append
      have pointer : (s.plus k).plus u.length = s.plus (k + u.length : Nat) := by
        rw [Pointer.plus_plus, Int.natCast_add]
      rw [pointer] at called
      cases r with
      | nil =>
        rw [List.length_nil] at size
        have last : k + u.length + w.length = text.length := by omega
        rw [if_pos rfl] at called
        refine ⟨2, [s.plus (k + u.length : Nat)], m, ?_, ?_⟩
        · rw [strtokCalls, called]
          simp only [Option.bind_eq_bind, Option.bind_some]
          rw [strtokCalls, strtokSave_null delims some_]
          rfl
        · have none : Runs.Lists (· ∈ d) text (k + u.length + w.length + 1) [] :=
            Runs.lists_nil fun j low high => by omega
          have run := Runs.lists_cons skipped letters (Nat.le_add_right _ _)
            (Nat.lt_add_of_pos_right length) (.inl last) start none
          refine ⟨⟨_, run, rfl, fun r member => ?_⟩, fun b _ => rfl, [], rfl,
            fun j member => absurd member List.not_mem_nil, fun j _ => rfl⟩
          obtain rfl := List.mem_singleton.mp member
          rw [text_eq, ← List.append_nil w]
          exact token
      | cons c r =>
        rw [if_neg (List.cons_ne_nil c r)] at called
        have separator : Runs.SepAt (· ∈ d) text (k + u.length + w.length) := by
          have split : text.drop k = (u ++ w) ++ [c] ++ r := by simp [parts]
          refine Runs.sepAt_of_part split (fun x member => ?_) ?_ ?_
          · exact List.mem_singleton.mp member ▸ ends c rfl
          · rw [List.length_append]
            omega
          · rw [List.length_append, List.length_singleton]
            omega
        rw [List.length_cons] at size
        -- the memory behind the call
        have stored := store_self m ((s.plus k).plus (u.length + w.length)) 0
        have others (b : Nat) (apart : b ≠ s.block) :
            m.store ((s.plus k).plus (u.length + w.length)) 0 b = m b := store_of_ne apart
        have nul : ((s.plus k).plus (u.length + w.length)).index =
            s.index + (k + u.length + w.length : Nat) := by
          simp only [Pointer.plus]
          omega
        rw [nul, show ((s.plus k).plus (u.length + w.length)).block = s.block from rfl] at stored
        generalize m.store ((s.plus k).plus (u.length + w.length)) 0 = m₁ at called stored others
        have next : (s.plus k).plus (u.length + w.length + 1) =
            s.plus (k + u.length + w.length + 1 : Nat) := by
          rw [Pointer.plus_plus]
          congr 1
          omega
        rw [next] at called
        have tail : text.drop (k + u.length + w.length + 1) = r := by
          have shift : k + u.length + w.length + 1 = k + (u.length + (w.length + 1)) := by omega
          rw [shift, ← List.drop_drop, parts, ← List.drop_drop, List.drop_left, ← List.drop_drop,
            List.drop_left]
          rfl
        have behind : Spells (m₁ s.block) (s.index + (k + u.length + w.length + 1 : Nat))
            (text.drop (k + u.length + w.length + 1)) := by
          have after := token.append.2.2
          rw [tail]
          refine Spells.congr (r := m s.block) ?_ fun j low _ => ?_
          · rwa [show s.index + (k + u.length + w.length + 1 : Nat) =
              s.index + (k + u.length : Nat) + w.length + 1 by omega]
          · rw [stored]
            exact Region.cell_write_of_ne (by omega)
        have last : k + u.length + w.length - 1 + 1 = k + u.length + w.length := by omega
        have shared := apart _ (letters (k + u.length + w.length - 1) (by omega) (by omega))
        rw [last] at shared
        -- the NUL ends the text before the delimiter string, or becomes its first character
        have later : ∃ calls tokens m',
            strtokCalls passes (some q) calls m₁ none
              (some (s.plus (k + u.length + w.length + 1 : Nat))) = some (tokens, m') ∧
            Tokenised m₁ m' s text d (k + u.length + w.length + 1) tokens := by
          by_cases hit : q.block = s.block ∧
              q.index ≤ s.index + (k + u.length + w.length : Nat) ∧
              s.index + (k + u.length + w.length : Nat) ≤ q.index + d.length
          · obtain ⟨same, low, high⟩ := hit
            obtain ⟨begins, separators⟩ := shared same low high
            have empty : m₁.load q = 0 := by
              rw [load, same, stored, begins]
              exact Region.cell_write_self ..
            refine ⟨1, [], m₁, ?_, .nil (Runs.lists_nil fun j low high => ?_)⟩
            · rw [strtokCalls, strtokSave_empty empty]
              rfl
            · exact separators j (by omega) high
          · have kept : Spells (m₁ q.block) q.index d := by
              by_cases same : q.block = s.block
              · rw [same] at delims ⊢
                refine delims.congr fun j low high => ?_
                rw [stored]
                exact Region.cell_write_of_ne fun here => hit ⟨same, here ▸ low, here ▸ high⟩
              · rwa [others _ same]
            exact ih kept (by omega) (.inr separator) behind (Option.none_or ..) (by omega)
        obtain ⟨calls, tokens, m', run, later⟩ := later
        refine ⟨calls + 1, s.plus (k + u.length : Nat) :: tokens, m', ?_, ?_⟩
        · rw [strtokCalls, called]
          simp only [Option.bind_eq_bind, Option.bind_some]
          rw [run]
          rfl
        · obtain ⟨⟨runs, lists, rfl, texts⟩, frame, cells, record, zeros, kept⟩ := later
          have early (j : Int) (low : j ≤ s.index + (k + u.length + w.length : Nat)) :
              (m' s.block).cell j = (m₁ s.block).cell j := by
            refine kept j fun member => ?_
            obtain ⟨_, i, behind, rfl, _⟩ := zeros j member
            omega
          have ended : (m' s.block).cell (s.index + (k + u.length + w.length : Nat)) = 0 := by
            rw [early _ (Int.le_refl _), stored]
            exact Region.cell_write_self ..
          have run := Runs.lists_cons skipped letters (Nat.le_add_right _ _)
            (Nat.lt_add_of_pos_right length) (.inr separator) start lists
          refine ⟨⟨_, run, rfl, fun r member => ?_⟩, fun b apart => ?_,
            cells ++ [s.index + (k + u.length + w.length : Nat)], ?_, fun j member => ?_,
            fun j absent => ?_⟩
          · rcases List.mem_cons.mp member with rfl | other
            · rw [text_eq]
              refine token.cut ?_ fun j _ high => ?_
              · rwa [show s.index + (k + u.length : Nat) + (w.length : Int) =
                  s.index + (k + u.length + w.length : Nat) by omega]
              · rw [early j (by omega), stored]
                exact Region.cell_write_of_ne (by omega)
            · exact texts r other
          · rw [frame b apart, others b apart]
          · rw [record, stored, List.append_assoc]
            rfl
          · rcases List.mem_append.mp member with other | here
            · obtain ⟨zero, i, low, place, delimiter⟩ := zeros j other
              exact ⟨zero, i, by omega, place, delimiter⟩
            · obtain rfl := List.mem_singleton.mp here
              exact ⟨ended, _, by omega, rfl, separator⟩
          · obtain ⟨notLater, notHere⟩ := not_or.mp (mt List.mem_append.mpr absent)
            rw [kept j notLater, stored]
            exact Region.cell_write_of_ne fun same => notHere (same ▸ List.mem_singleton_self _)

/-- The calls of `strtok_save` for a string end and return its runs, and store NULs over its
delimiters only. -/
theorem BlockMemory.strtokCalls_tokenised {s : Pointer} (ptr : Option Pointer)
    (spells : Spells (m s.block) s.index text) (delims : Spells (m q.block) q.index d)
    (some_ : d ≠ []) (short : text.length < uintWidth) (few : d.length < uintWidth) :
    ∃ passes calls tokens m',
      strtokCalls passes (some q) calls m (some s) ptr = some (tokens, m') ∧
        Tokenised m m' s text d 0 tokens := by
  have whole : Spells (m s.block) (s.index + (0 : Nat)) (text.drop 0) := by
    rwa [Int.natCast_zero, Int.add_zero]
  have apart (i : Nat) (letter : Runs.LetterAt (· ∈ d) text i) (same : q.block = s.block) :=
    spells.shared (same ▸ delims) letter
  refine ⟨text.length + 1, strtokCalls_spec (n := text.length + 1) delims some_ few apart short
    (Nat.lt_succ_self _) (Nat.zero_le _) (.inl rfl) whole ?_ (by omega)⟩
  rw [Option.some_or, Int.natCast_zero, Pointer.plus_zero]

/-- `"ab"` at its second letter. -/
theorem BlockMemory.strtokCalls_tokenised_ab :
    ∃ passes calls tokens m',
      strtokCalls passes (some ⟨1, 1⟩) calls twoLetters (some ⟨1, 0⟩) none = some (tokens, m') ∧
        Tokenised twoLetters m' ⟨1, 0⟩ [97, 98] [98] 0 tokens := by
  have spells : Spells (twoLetters 1) 0 [97, 98] := ⟨rfl, by decide, rfl, by decide, rfl⟩
  have delims : Spells (twoLetters 1) 1 [98] := ⟨rfl, by decide, rfl⟩
  exact strtokCalls_tokenised none spells delims (List.cons_ne_nil 98 []) (by decide) (by decide)

end Nupkux
