/-!
# Span — where a match lies

A match is an offset into the searched text and a number of characters.  Matches are ordered by
offset and then by length; `Span.sorted` is that order without repetitions.
* `mem_sorted`: sorting keeps the members;
* `ascending_sorted`, `nodup_sorted`: they ascend, so that each of them is there once.
-/

namespace GapRegex

/-- A stretch of the searched text. -/
structure Span where
  /-- The first character of the match. -/
  offset : Nat
  /-- How many characters the match has. -/
  length : Nat
  deriving DecidableEq, Repr

namespace Span

/-- The offset after the last character.  Offsets have no limit here, so that no sum is too large
for one. -/
def stop (s : Span) : Nat := s.offset + s.length

/-- An empty span at either end of a span lies inside it too. -/
def contains (s t : Span) : Bool :=
  s.offset ≤ t.offset && t.stop ≤ s.stop

/-- By offset, then by length. -/
def compare (s t : Span) : Ordering :=
  (Ord.compare s.offset t.offset).then (Ord.compare s.length t.length)

instance : Ord Span := ⟨compare⟩

/-- Puts a span in its place, unless it is there already. -/
def insertSorted (s : Span) : List Span → List Span
  | [] => [s]
  | t :: rest =>
    match compare s t with
    | .lt => s :: t :: rest
    | .eq => t :: rest
    | .gt => t :: insertSorted s rest

/-- The spans in ascending order, each of them once. -/
def sorted (spans : List Span) : List Span := spans.foldr insertSorted []

variable {s t u : Span} {spans : List Span}

/-! ### The order -/

theorem compare_eq_lt : compare s t = .lt ↔
    s.offset < t.offset ∨ s.offset = t.offset ∧ s.length < t.length := by
  simp only [compare, Ordering.then_eq_lt, Nat.compare_eq_lt, Nat.compare_eq_eq]

theorem compare_eq_eq : compare s t = .eq ↔ s = t := by
  cases s
  cases t
  simp [compare, Ordering.then_eq_eq]

theorem compare_eq_gt : compare s t = .gt ↔ compare t s = .lt := by
  rw [compare_eq_lt, compare, Ordering.then_eq_gt, Nat.compare_eq_gt, Nat.compare_eq_eq,
    Nat.compare_eq_gt, eq_comm]

theorem compare_trans (h : compare s t = .lt) (h' : compare t u = .lt) : compare s u = .lt := by
  rw [compare_eq_lt] at *
  omega

/-! ### Sorting -/

/-- Each span comes before all that follow it. -/
def Ascending (spans : List Span) : Prop := spans.Pairwise fun s t => compare s t = .lt

theorem mem_insertSorted : u ∈ insertSorted s spans ↔ u = s ∨ u ∈ spans := by
  induction spans with
  | nil => simp [insertSorted]
  | cons t rest ih =>
    rw [insertSorted]
    split
    · exact List.mem_cons
    · next h =>
      obtain rfl := compare_eq_eq.mp h
      simp
    · rw [List.mem_cons, ih, List.mem_cons, or_left_comm]

theorem mem_sorted : s ∈ sorted spans ↔ s ∈ spans := by
  induction spans with
  | nil => simp [sorted]
  | cons t rest ih =>
    rw [sorted, List.foldr_cons, ← sorted, mem_insertSorted, ih, List.mem_cons]

theorem ascending_insertSorted (h : Ascending spans) : Ascending (insertSorted s spans) := by
  induction spans with
  | nil => simp [insertSorted, Ascending]
  | cons t rest ih =>
    obtain ⟨ht, hrest⟩ := List.pairwise_cons.mp h
    rw [insertSorted]
    split
    · next hlt =>
      refine List.pairwise_cons.mpr ⟨List.forall_mem_cons.mpr ⟨hlt, fun u hu => ?_⟩, h⟩
      exact compare_trans hlt (ht u hu)
    · exact h
    · next hgt =>
      refine List.pairwise_cons.mpr ⟨fun u hu => ?_, ih hrest⟩
      rcases mem_insertSorted.mp hu with rfl | hu
      · exact compare_eq_gt.mp hgt
      · exact ht u hu

theorem ascending_sorted (spans : List Span) : Ascending (sorted spans) := by
  induction spans with
  | nil => exact List.Pairwise.nil
  | cons s rest ih => exact ascending_insertSorted ih

theorem nodup_sorted (spans : List Span) : (sorted spans).Nodup := by
  refine (ascending_sorted spans).imp fun {s t} h => ?_
  rintro rfl
  rw [compare_eq_eq.mpr rfl] at h
  cases h

end Span

end GapRegex
