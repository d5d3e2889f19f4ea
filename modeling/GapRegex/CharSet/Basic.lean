/-!
# CharSet — sets of characters as maximal runs of code points

A set is the list of its maximal runs of consecutive code points, in ascending order.  The runs
keep a distance, so a set has one representation only: however its members were added, equal sets
are equal lists.  A run never crosses the surrogates, which are no characters.
-/

namespace GapRegex

/-- The code points from `first` to `last`, both included. -/
structure Run where
  first : Nat
  last : Nat
  deriving DecidableEq, Repr

namespace Run

/-- A run has a member, and all its members are characters: they lie on one side of the
surrogates. -/
def Valid (r : Run) : Prop :=
  r.first ≤ r.last ∧ (r.last < 0xD800 ∨ 0xDFFF < r.first ∧ r.last < 0x110000)

/-- At least one code point lies between the two runs. -/
def Before (r s : Run) : Prop := r.last + 1 < s.first

/-- The run of one character. -/
def ofChar (c : Char) : Run := ⟨c.toNat, c.toNat⟩

def contains (r : Run) (c : Char) : Bool := r.first ≤ c.toNat && c.toNat ≤ r.last

def size (r : Run) : Nat := r.last + 1 - r.first

/-- The members in ascending order. -/
def toList (r : Run) : List Char := (List.range' r.first r.size).map Char.ofNat

/-- The run from the first to the last member of two runs that touch. -/
def hull (r s : Run) : Run := ⟨min r.first s.first, max r.last s.last⟩

/-- Adds a run to a list of runs, joined with those that it touches. -/
def insertInto (r : Run) : List Run → List Run
  | [] => [r]
  | s :: rest =>
    if r.last + 1 < s.first then r :: s :: rest
    else if s.last + 1 < r.first then s :: insertInto r rest
    else insertInto (r.hull s) rest

theorem valid_ofChar (c : Char) : (ofChar c).Valid := by
  have h := c.valid
  simp only [UInt32.isValidChar, Nat.isValidChar] at h
  have hc : c.toNat = c.val.toNat := rfl
  simp only [Valid, ofChar]
  omega

theorem Valid.hull {r s : Run} (hr : r.Valid) (hs : s.Valid) (h₁ : ¬ r.last + 1 < s.first)
    (h₂ : ¬ s.last + 1 < r.first) : (r.hull s).Valid := by
  simp only [Valid, Run.hull] at *
  omega

theorem valid_insertInto {r : Run} {rs : List Run} (hr : r.Valid) (hrs : ∀ s ∈ rs, s.Valid) :
    ∀ s ∈ insertInto r rs, s.Valid := by
  induction rs generalizing r with
  | nil => simpa [insertInto] using hr
  | cons s rest ih =>
    obtain ⟨hs, hrest⟩ := List.forall_mem_cons.mp hrs
    unfold insertInto
    split
    · simpa using ⟨hr, hs, hrest⟩
    · split
      · exact List.forall_mem_cons.mpr ⟨hs, ih hr hrest⟩
      · exact ih (hr.hull hs ‹_› ‹_›) hrest

/-- What lies before a run and before every run of a list lies before their union. -/
theorem before_insertInto {a r : Run} {rs : List Run} (hr : a.Before r)
    (hrs : ∀ s ∈ rs, a.Before s) : ∀ s ∈ insertInto r rs, a.Before s := by
  induction rs generalizing r with
  | nil => simpa [insertInto] using hr
  | cons s rest ih =>
    obtain ⟨hs, hrest⟩ := List.forall_mem_cons.mp hrs
    unfold insertInto
    split
    · simpa using ⟨hr, hs, hrest⟩
    · split
      · exact List.forall_mem_cons.mpr ⟨hs, ih hr hrest⟩
      · refine ih ?_ hrest
        simp only [Before, hull] at *
        omega

theorem apart_insertInto {r : Run} {rs : List Run} (hr : r.Valid) (hrs : ∀ s ∈ rs, s.Valid)
    (h : rs.Pairwise Before) : (insertInto r rs).Pairwise Before := by
  induction rs generalizing r with
  | nil => simp [insertInto]
  | cons s rest ih =>
    obtain ⟨hs, hrest⟩ := List.forall_mem_cons.mp hrs
    obtain ⟨hsb, hp⟩ := List.pairwise_cons.mp h
    unfold insertInto
    split
    · rename_i hrs'
      refine List.pairwise_cons.mpr ⟨?_, h⟩
      intro t ht
      rcases List.mem_cons.mp ht with rfl | ht
      · exact hrs'
      · have := hsb t ht
        simp only [Before, Valid] at *
        omega
    · split
      · exact List.pairwise_cons.mpr
          ⟨before_insertInto ‹_› hsb, ih hr hrest hp⟩
      · exact ih (hr.hull hs ‹_› ‹_›) hrest hp

end Run

/-- A set of characters. -/
structure CharSet where
  runs : List Run
  valid : ∀ r ∈ runs, r.Valid
  apart : runs.Pairwise Run.Before
  deriving DecidableEq

namespace CharSet

def empty : CharSet := ⟨[], by simp, by simp⟩

instance : EmptyCollection CharSet := ⟨empty⟩
instance : Inhabited CharSet := ⟨empty⟩

/-- Adds all the members of a run. -/
def addRun (s : CharSet) (r : Run) (h : r.Valid) : CharSet :=
  ⟨r.insertInto s.runs, Run.valid_insertInto h s.valid, Run.apart_insertInto h s.valid s.apart⟩

def add (s : CharSet) (c : Char) : CharSet := s.addRun (.ofChar c) (Run.valid_ofChar c)

/-- Adds both ends and every character between them in code point order.  Nothing lies between
the ends of a reversed range, and surrogates are left out. -/
def addRange (s : CharSet) (a b : Char) : CharSet :=
  if h : a.toNat ≤ b.toNat then
    if hs : b.toNat < 0xD800 ∨ 0xDFFF < a.toNat then
      s.addRun ⟨a.toNat, b.toNat⟩ (by
        have := Run.valid_ofChar b
        simp only [Run.Valid, Run.ofChar] at *
        omega)
    else
      (s.addRun ⟨a.toNat, 0xD7FF⟩ (by
        have := Run.valid_ofChar a
        simp only [Run.Valid, Run.ofChar] at *
        omega)).addRun ⟨0xE000, b.toNat⟩ (by
        have := Run.valid_ofChar b
        simp only [Run.Valid, Run.ofChar] at *
        omega)
  else (s.add a).add b

/-- The set of the characters of a list. -/
def ofList (cs : List Char) : CharSet := cs.foldl add empty

def contains (s : CharSet) (c : Char) : Bool := s.runs.any (·.contains c)

instance : Membership Char CharSet := ⟨fun s c => s.contains c = true⟩

instance (c : Char) (s : CharSet) : Decidable (c ∈ s) :=
  inferInstanceAs (Decidable (s.contains c = true))

/-- The members in ascending order. -/
def toList (s : CharSet) : List Char := s.runs.flatMap Run.toList

def size (s : CharSet) : Nat := s.runs.foldr (fun r n => r.size + n) 0

def isEmpty (s : CharSet) : Bool := s.runs.isEmpty

end CharSet

end GapRegex
