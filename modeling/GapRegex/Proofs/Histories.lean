import Mathlib.Data.Char
import Mathlib.Data.Set.Card
import Mathlib.Order.Interval.Set.Defs
import GapRegex.CharSet.Lemmas

/-!
# Histories — a set of characters, however it was made

A set is made by a history of edits: it is emptied, or filled from a list, or a character or a range
is added.  Each edit has an effect on sets in the sense of mathematics (`Edit.effect`), and the
members of the set that a history makes are those that these effects come to.
* `carrier_apply`, `carrier_foldl`: one edit, and a history of them, through the members alone;
* `toList_nodup`, `ncard_carrier`: no member is listed twice, and how many there are;
* `addRange_eq_foldl`: a range is what its code points add one by one, those of surrogates left out;
* `build_canonical`: nothing but the members can be told from a set.
-/

namespace GapRegex.CharSet

/-- One thing that can be done to a set. -/
inductive Edit where
  /-- Leaves no member. -/
  | clear
  /-- Leaves the characters of a list. -/
  | fill (cs : List Char)
  | add (c : Char)
  | addRange (a b : Char)

namespace Edit

/-- The set after the edit. -/
def apply (s : CharSet) : Edit → CharSet
  | clear => empty
  | fill cs => ofList cs
  | add c => s.add c
  | addRange a b => s.addRange a b

/-- The members after the edit.  Between the ends of a reversed range there is nothing. -/
def effect (m : Set Char) : Edit → Set Char
  | clear => ∅
  | fill cs => {c | c ∈ cs}
  | add c => insert c m
  | addRange a b => {a, b} ∪ Set.Ioo a b ∪ m

end Edit

/-- The set that a history makes from nothing. -/
def build (history : List Edit) : CharSet := history.foldl Edit.apply empty

/-- The members that a history asks for. -/
def asked (history : List Edit) : Set Char := history.foldl Edit.effect ∅

/-- The members of a set. -/
def carrier (s : CharSet) : Set Char := {c | s.contains c = true}

/-! ### One edit, and a history -/

variable {s t : CharSet} {c : Char}

@[simp] theorem mem_carrier : c ∈ s.carrier ↔ s.contains c = true := Iff.rfl

theorem carrier_apply (s : CharSet) (e : Edit) : (e.apply s).carrier = e.effect s.carrier := by
  ext c
  cases e with
  | clear => simp [Edit.apply, Edit.effect]
  | fill cs => simp [Edit.apply, Edit.effect]
  | add a =>
    simp only [Edit.apply, Edit.effect, mem_carrier, contains_add, Set.mem_insert_iff]
    exact or_comm.trans (or_congr_left eq_comm)
  | addRange a b =>
    simp only [Edit.apply, Edit.effect, mem_carrier, contains_addRange, Set.mem_union,
      Set.mem_insert_iff, Set.mem_singleton_iff, Set.mem_Ioo]
    grind

/-- By induction on the history, with the set that it starts from general. -/
theorem carrier_foldl (s : CharSet) (history : List Edit) :
    (history.foldl Edit.apply s).carrier = history.foldl Edit.effect s.carrier := by
  induction history generalizing s with
  | nil => rfl
  | cons e history ih => rw [List.foldl_cons, List.foldl_cons, ih, carrier_apply]

theorem carrier_build (history : List Edit) : (build history).carrier = asked history := by
  have hempty : empty.carrier = ∅ := by
    ext c
    simp
  rw [build, carrier_foldl, hempty, asked]

/-! ### What a set shows -/

theorem toList_nodup (s : CharSet) : s.toList.Nodup := s.toList_pairwise.imp ne_of_lt

theorem ncard_carrier (s : CharSet) : s.carrier.ncard = s.size := by
  have hmem : s.carrier = (s.toList.toFinset : Set Char) := by
    ext c
    simp
  rw [hmem, Set.ncard_coe_finset, List.toFinset_card_of_nodup s.toList_nodup, length_toList]

theorem isEmpty_iff_carrier : s.isEmpty = true ↔ s.carrier = ∅ := by
  simp [isEmpty_iff, Set.eq_empty_iff_forall_notMem]

theorem eq_iff_contains : s = t ↔ ∀ c, s.contains c = t.contains c :=
  ⟨fun h _ => h ▸ rfl, ext⟩

/-! ### Ranges, code point by code point -/

/-- The character of a code point, if it has one. -/
def ofCodePoint? (n : Nat) : Option Char :=
  if n.isValidChar then some (Char.ofNat n) else none

/-- The characters of the code points strictly between those of `a` and `b`. -/
def between (a b : Char) : List Char :=
  (List.range' (a.toNat + 1) (b.toNat - (a.toNat + 1))).filterMap ofCodePoint?

theorem ofCodePoint?_eq_some {n : Nat} : ofCodePoint? n = some c ↔ n = c.toNat := by
  unfold ofCodePoint?
  constructor
  · intro h
    split at h
    · next hn =>
      cases h
      rw [Char.ofNat, dif_pos hn]
      rfl
    · cases h
  · rintro rfl
    have hc : c.toNat.isValidChar := c.valid
    rw [if_pos hc, Char.ofNat_toNat]

theorem mem_between {a b : Char} : c ∈ between a b ↔ c ∈ Set.Ioo a b := by
  simp only [between, List.mem_filterMap, ofCodePoint?_eq_some, exists_eq_right,
    List.mem_range'_1, Set.mem_Ioo, ← toNat_lt_toNat]
  omega

/-- A range is what its code points add one by one.  Those that are no characters are left out. -/
theorem addRange_eq_foldl (s : CharSet) (a b : Char) :
    s.addRange a b = (between a b).foldl add ((s.add a).add b) := by
  refine ext fun c => Bool.eq_iff_iff.mpr ?_
  rw [contains_addRange, contains_foldl_add, contains_add, contains_add, mem_between,
    Set.mem_Ioo]
  grind

/-! ### Histories -/

/-- Whatever the history of a set:
· its members are those that the history asks for;
· they are listed in strictly ascending order, and none of them twice;
· its size is their number, and it is empty if there are none;
· it is the same as the set of another history if the two contain the same characters;
· the next range adds its ends, and the characters of the code points between them. -/
theorem build_canonical (history : List Edit) :
    (∀ c, (build history).contains c = true ↔ c ∈ asked history) ∧
      (∀ c, c ∈ (build history).toList ↔ c ∈ asked history) ∧
      (build history).toList.Pairwise (· < ·) ∧ (build history).toList.Nodup ∧
      (build history).size = (asked history).ncard ∧
      ((build history).isEmpty = true ↔ asked history = ∅) ∧
      (∀ other, build history = build other ↔
        ∀ c, (build history).contains c = (build other).contains c) ∧
      ∀ a b, build (history ++ [.addRange a b]) =
        (between a b).foldl add (((build history).add a).add b) := by
  have hmem : ∀ c, (build history).contains c = true ↔ c ∈ asked history := fun c => by
    rw [← carrier_build, mem_carrier]
  refine ⟨hmem, fun c => mem_toList.trans (hmem c), toList_pairwise _, toList_nodup _, ?_, ?_,
    fun other => eq_iff_contains, fun a b => ?_⟩
  · rw [← carrier_build, ncard_carrier]
  · rw [isEmpty_iff_carrier, carrier_build]
  · rw [build, List.foldl_append]
    exact addRange_eq_foldl _ a b

example : build [.addRange 'c' 'a', .add 'b'] = build [.fill ['x'], .clear, .addRange 'a' 'c'] := by
  decide

end GapRegex.CharSet
