import GapRegex.Proofs.PrintedText

/-!
# NormalText — what is kept of a raw text

The normal form of a raw text is described without the steps that compute it: of the pieces that
the text is cut into, the longest run of outer ones is dropped at either end, and the others are
written out.
* `normalize_of_split`: this is what normalizing does, in every dialect whose sentinel is not its
  escape;
* `split_append`: a text that leaves no escape alone is cut on its own, unless a gap lies across
  its end;
* `pieces_of_normal`: a text that is its own normal form holds no gap shorthand and no outer piece
  at an end;
* `literals`: what the pieces of a class body, or of a run, are read as;
* `classBodies`, `Passes`: the bodies of the classes in a text, and of those between two places.
-/

namespace GapRegex.NormalForm

variable {g : Dialect}

/-! ### What trimming drops -/

/-- What is trimmed are the outer pieces at both ends, as many as there are. -/
theorem exists_trim (g : Dialect) (ps : List Piece) :
    ∃ front back, ps = front ++ trim g ps ++ back ∧
      (∀ p ∈ front, p.isOuter g = true) ∧ (∀ p ∈ back, p.isOuter g = true) ∧
      (∀ p ∈ (trim g ps).head?, p.isOuter g = false) ∧
      ∀ p ∈ (trim g ps).getLast?, p.isOuter g = false := by
  have all_outer : ∀ qs : List Piece, ∀ p ∈ qs.takeWhile (Piece.isOuter g), p.isOuter g = true :=
    fun qs => List.all_eq_true.mp List.all_takeWhile
  have not_outer : ∀ qs : List Piece, ∀ p ∈ (qs.dropWhile (Piece.isOuter g)).head?,
      p.isOuter g = false := by
    intro qs p hp
    have := List.head?_dropWhile_not (Piece.isOuter g) qs
    rwa [Option.mem_def.mp hp] at this
  -- the end is trimmed first, and what is left of it has its last piece still
  obtain ⟨ms, hms⟩ : ∃ ms, ms = (ps.reverse.dropWhile (Piece.isOuter g)).reverse := ⟨_, rfl⟩
  have htrim : trim g ps = ms.dropWhile (Piece.isOuter g) := by rw [hms, trim]
  have hps : ps = ms ++ (ps.reverse.takeWhile (Piece.isOuter g)).reverse := by
    rw [hms, ← List.reverse_append, List.takeWhile_append_dropWhile, List.reverse_reverse]
  have hkept : ms = ms.takeWhile (Piece.isOuter g) ++ trim g ps := by
    rw [htrim, List.takeWhile_append_dropWhile]
  refine ⟨ms.takeWhile (Piece.isOuter g), (ps.reverse.takeWhile (Piece.isOuter g)).reverse,
    by rw [← hkept]; exact hps, all_outer ms, ?_, ?_, ?_⟩
  · exact fun p hp => all_outer _ p (List.mem_reverse.mp hp)
  · rw [htrim]
    exact not_outer ms
  · intro p hp
    refine not_outer ps.reverse p ?_
    rw [← List.getLast?_reverse, ← hms, hkept, List.getLast?_append, Option.mem_def.mp hp]
    rfl

/-- A raw text is cut into pieces from the left.  The longest runs of gaps and bare sentinels at
both ends are dropped, and what is kept is written with the sentinel for each gap. -/
theorem normalize_of_split (hg : g.sentinel ≠ g.escape) (raw : List Char) :
    ∃ front kept back, split g raw = front ++ kept ++ back ∧
      (∀ p ∈ front, p.isOuter g = true) ∧ (∀ p ∈ back, p.isOuter g = true) ∧
      (∀ p ∈ kept.head?, p.isOuter g = false) ∧ (∀ p ∈ kept.getLast?, p.isOuter g = false) ∧
      normalize g raw = if kept = [] then .error .emptyExpression else .ok (write g kept) := by
  obtain ⟨front, back, hps, hfront, hback, hhead, hlast⟩ := exists_trim g (split g raw)
  exact ⟨front, _, back, hps, hfront, hback, hhead, hlast, normalize_eq hg raw⟩

/-- An escaped backslash before a bare sentinel and an escaped one, between outer gaps. -/
theorem normalize_of_split_escapes :
    Dialect.standard.sentinel ≠ Dialect.standard.escape ∧
      ∃ front kept back, split .standard ['.', '*', '\\', '\\', '@', '\\', '@', '@', '.', '*'] =
          front ++ kept ++ back ∧
        (∀ p ∈ front, p.isOuter .standard = true) ∧ (∀ p ∈ back, p.isOuter .standard = true) ∧
        (∀ p ∈ kept.head?, p.isOuter .standard = false) ∧
        (∀ p ∈ kept.getLast?, p.isOuter .standard = false) ∧
        normalize .standard ['.', '*', '\\', '\\', '@', '\\', '@', '@', '.', '*'] =
          if kept = [] then .error .emptyExpression else .ok (write .standard kept) :=
  ⟨by decide, normalize_of_split (by decide) _⟩

/-! ### Texts that are cut on their own -/

/-- The piece as it stands in raw text. -/
def Piece.rawText (g : Dialect) : Piece → List Char
  | pair c => [g.escape, c]
  | dangling => [g.escape]
  | gap => [g.gap.1, g.gap.2]
  | plain c => [c]

/-- Cutting loses nothing. -/
theorem flatMap_rawText_split (g : Dialect) (raw : List Char) :
    (split g raw).flatMap (Piece.rawText g) = raw := by
  fun_induction split g raw with
  | case1 => rfl
  | case2 => simp [Piece.rawText]
  | case3 c hc => simp [Piece.rawText]
  | case4 d rest ih => simp [Piece.rawText, ih]
  | case5 c d rest hc hgap ih => simp [Piece.rawText, ih, hgap]
  | case6 c d rest hc hgap ih => simp [Piece.rawText, ih]

/-- Where no escape is left alone and no gap lies across the seam, both sides are cut on their
own. -/
theorem split_append {s rest : List Char} (hd : Piece.dangling ∉ split g s)
    (hr : rest.head? ≠ some g.gap.2) : split g (s ++ rest) = split g s ++ split g rest := by
  fun_induction split g s with
  | case1 => rfl
  | case2 => simp at hd
  | case3 c hc =>
    cases rest with
    | nil => simp [split, hc]
    | cons d rest =>
      have hgap : ¬ (c = g.gap.1 ∧ d = g.gap.2) := fun h => hr (congrArg some h.2)
      rw [List.singleton_append, split, if_neg hc, if_neg hgap]
      rfl
  | case4 d s ih =>
    simp only [List.mem_cons, not_or] at hd
    rw [List.cons_append, List.cons_append, split, if_pos rfl, ih hd.2]
    rfl
  | case5 c d s hc hgap ih =>
    simp only [List.mem_cons, not_or] at hd
    rw [List.cons_append, List.cons_append, split, if_neg hc, if_pos hgap, ih hd.2]
    rfl
  | case6 c d s hc hgap ih =>
    simp only [List.mem_cons, not_or] at hd
    rw [List.cons_append, List.cons_append, split, if_neg hc, if_neg hgap, ← List.cons_append,
      ih hd.2]
    rfl

/-! ### Normal texts -/

theorem length_write_le (g : Dialect) (ps : List Piece) :
    (write g ps).length ≤ (ps.flatMap (Piece.rawText g)).length := by
  induction ps with
  | nil => exact Nat.le_refl _
  | cons p ps ih =>
    rw [write_cons, List.flatMap_cons, List.length_append, List.length_append]
    have : (p.text g).length ≤ (p.rawText g).length := by
      cases p <;> simp [Piece.text, Piece.rawText]
    omega

/-- Each gap makes the text shorter. -/
theorem length_write_lt (g : Dialect) {ps : List Piece} (h : Piece.gap ∈ ps) :
    (write g ps).length < (ps.flatMap (Piece.rawText g)).length := by
  obtain ⟨qs, rs, rfl⟩ := List.append_of_mem h
  have hq := length_write_le g qs
  have hr := length_write_le g rs
  simp only [write_append, write_cons, List.flatMap_append, List.flatMap_cons, List.length_append,
    Piece.text, Piece.rawText, List.length_cons, List.length_nil]
  omega

theorem write_of_no_gap {ps : List Piece} (h : Piece.gap ∉ ps) :
    write g ps = ps.flatMap (Piece.rawText g) := by
  induction ps with
  | nil => rfl
  | cons p ps ih =>
    simp only [List.mem_cons, not_or] at h
    rw [write_cons, List.flatMap_cons, ih h.2]
    cases p with
    | gap => exact absurd rfl h.1
    | _ => rfl

theorem write_split {s : List Char} (h : Piece.gap ∉ split g s) : write g (split g s) = s := by
  rw [write_of_no_gap h, flatMap_rawText_split]

/-- A text that is its own normal form holds no gap shorthand, and neither end of it can be
trimmed. -/
theorem pieces_of_normal (hg : g.sentinel ≠ g.escape) {s : List Char}
    (hs : normalize g s = .ok s) : Piece.gap ∉ split g s ∧ split g s ≠ [] ∧
      (∀ p ∈ (split g s).head?, p.isOuter g = false) ∧
      ∀ p ∈ (split g s).getLast?, p.isOuter g = false := by
  rw [normalize_eq hg] at hs
  split at hs
  · cases hs
  · next hne =>
    injection hs with hs
    obtain ⟨front, back, hps, -, -, hhead, hlast⟩ := exists_trim g (split g s)
    have hraw := congrArg List.length (flatMap_rawText_split g s)
    have hkept := congrArg List.length hs
    have hwrite := congrArg (fun ps => (write g ps).length) hps
    simp only [write_append, List.length_append] at hwrite
    have hle := length_write_le g (split g s)
    have hfront : write g front = [] := List.length_eq_zero_iff.mp (by omega)
    have hback : write g back = [] := List.length_eq_zero_iff.mp (by omega)
    rw [write_eq_nil.mp hfront, write_eq_nil.mp hback, List.nil_append, List.append_nil] at hps
    rw [← hps] at hne hhead hlast
    refine ⟨fun hgap => ?_, hne, hhead, hlast⟩
    have hlt := length_write_lt g hgap
    omega

/-! ### Pieces as literals -/

/-- The literal that a piece is read as.  A gap is read as a bare sentinel. -/
def Piece.literal? (g : Dialect) : Piece → Option Literal
  | pair c => some ⟨c, true⟩
  | dangling => none
  | gap => some ⟨g.sentinel, false⟩
  | plain c => some ⟨c, false⟩

/-- The literals that pieces are read as. -/
def literals (g : Dialect) (ps : List Piece) : List Literal := ps.filterMap (Piece.literal? g)

@[simp] theorem literals_nil (g : Dialect) : literals g [] = [] := rfl

@[simp] theorem literals_append (g : Dialect) (ps qs : List Piece) :
    literals g (ps ++ qs) = literals g ps ++ literals g qs := List.filterMap_append

theorem run_literals {ps : List Piece} (hd : Piece.dangling ∉ ps) :
    Literal.run g (literals g ps) = write g ps := by
  induction ps with
  | nil => rfl
  | cons p ps ih =>
    simp only [List.mem_cons, not_or] at hd
    rw [write_cons, ← ih hd.2]
    cases p with
    | dangling => exact absurd rfl hd.1
    | _ => rfl

/-- No piece of a cut text is the bare escape. -/
theorem ne_escape_of_plain_mem {s : List Char} {c : Char} (h : Piece.plain c ∈ split g s) :
    c ≠ g.escape := by
  fun_induction split g s with
  | case1 => cases h
  | case2 => simp at h
  | case3 d hd =>
    obtain rfl : c = d := by simpa using h
    exact hd
  | case4 d rest ih => exact ih (by simpa using h)
  | case5 d e rest hd hgap ih => exact ih (by simpa using h)
  | case6 d e rest hd hgap ih =>
    rcases List.mem_cons.mp h with h | h
    · obtain rfl : c = d := by simpa using h
      exact hd
    · exact ih h

/-! ### Classes -/

/-- The pieces between the brackets of each class, in reading order.  Up to the closing bracket
every piece belongs to the class, an opening bracket too.  A class that is not closed goes on to
the end. -/
def classBodies : List Piece → List (List Piece)
  | [] => []
  | p :: ps =>
    if p = .plain '[' then
      ps.takeWhile (· ≠ .plain ']') :: classBodies (ps.dropWhile (· ≠ .plain ']')).tail
    else classBodies ps
termination_by ps => ps.length
decreasing_by
  · have := (List.dropWhile_sublist (l := ps) (· ≠ .plain ']')).length_le
    simp only [List.length_tail, List.length_cons]
    omega
  · exact Nat.lt_succ_self _

variable {p : Piece} {ps qs rs body : List Piece} {bodies more : List (List Piece)}

@[simp] theorem classBodies_nil : classBodies [] = [] := by rw [classBodies]

theorem classBodies_cons (h : p ≠ .plain '[') : classBodies (p :: ps) = classBodies ps := by
  rw [classBodies, if_neg h]

theorem classBodies_class (h : Piece.plain ']' ∉ body) :
    classBodies (.plain '[' :: body ++ .plain ']' :: ps) = body :: classBodies ps := by
  have hbody : ∀ p ∈ body, decide (p ≠ .plain ']') = true := fun p hp =>
    decide_eq_true fun he => h (he ▸ hp)
  rw [List.cons_append, classBodies, if_pos rfl, List.takeWhile_append_of_pos hbody,
    List.dropWhile_append_of_pos hbody]
  simp

theorem classBodies_append (h : Piece.plain '[' ∉ ps) :
    classBodies (ps ++ qs) = classBodies qs := by
  induction ps with
  | nil => rfl
  | cons p ps ih =>
    simp only [List.mem_cons, not_or] at h
    rw [List.cons_append, classBodies_cons (Ne.symm h.1), ih h.2]

/-- From the place where `ps` is left of a text to the place where `qs` is, the classes with these
bodies are passed, and none is left open.  So their bodies come first, whatever the text goes on
with. -/
def Passes (ps : List Piece) (bodies : List (List Piece)) (qs : List Piece) : Prop :=
  ∀ rest, classBodies (ps ++ rest) = bodies ++ classBodies (qs ++ rest)

namespace Passes

theorem refl (ps : List Piece) : Passes ps [] ps := fun _ => rfl

theorem trans (h : Passes ps bodies qs) (h' : Passes qs more rs) :
    Passes ps (bodies ++ more) rs := by
  intro rest
  rw [h rest, h' rest, List.append_assoc]

theorem run (h : Piece.plain '[' ∉ ps) : Passes (ps ++ qs) [] qs := by
  intro rest
  rw [List.append_assoc]
  exact classBodies_append h

theorem piece (h : p ≠ .plain '[') : Passes (p :: ps) [] ps :=
  @run [p] ps fun hmem => h (List.mem_singleton.mp hmem).symm

theorem cons (h : p ≠ .plain '[') (h' : Passes ps bodies qs) : Passes (p :: ps) bodies qs :=
  (piece h).trans h'

theorem charClass (h : Piece.plain ']' ∉ body) :
    Passes (.plain '[' :: body ++ .plain ']' :: ps) [body] ps := by
  intro rest
  rw [List.append_assoc]
  exact classBodies_class h

/-- What is trimmed holds no class. -/
theorem classBodies_eq (hg : g.sentinel ≠ '[') (h : Passes (trim g ps) bodies []) :
    classBodies ps = bodies := by
  have outer : ∀ qs : List Piece, (∀ p ∈ qs, p.isOuter g = true) → Piece.plain '[' ∉ qs :=
    fun qs hqs hmem => hg (beq_iff_eq.mp (hqs _ hmem)).symm
  obtain ⟨front, back, hps, hfront, hback, -⟩ := exists_trim g ps
  calc classBodies ps
    _ = classBodies (front ++ (trim g ps ++ back)) := by rw [← List.append_assoc, ← hps]
    _ = classBodies (trim g ps ++ back) := classBodies_append (outer front hfront)
    _ = bodies ++ classBodies back := h back
    _ = bodies ++ classBodies (back ++ []) := by rw [List.append_nil]
    _ = bodies := by
      rw [classBodies_append (outer back hback), classBodies_nil, List.append_nil]

end Passes

end GapRegex.NormalForm
