import GapRegex.NormalForm

/-!
# Pieces — raw text as the normal form sees it

`split` cuts a raw text from the left: an escape goes with the character after it, a gap shorthand
is one piece, and any other character is a piece of its own.  Collapsing writes the pieces out with
the sentinel for each gap, and what is trimmed are the outer gaps and bare sentinels.
* `collapseOnto_eq`: collapsing is writing the pieces;
* `lastIsEscaped_eq`: the number of escapes in front of the last character tells whether that
  character belongs to a pair, for a pair adds an even number of escapes or ends a run of them;
* `normalize_eq`: the normal form is what is left of the pieces after trimming.
-/

namespace GapRegex.NormalForm

/-- A part of a raw text. -/
inductive Piece where
  /-- The escape and the character after it. -/
  | pair (c : Char)
  /-- The escape at the end of the text. -/
  | dangling
  /-- The gap shorthand. -/
  | gap
  | plain (c : Char)
  deriving DecidableEq

def split (g : Dialect) : List Char → List Piece
  | [] => []
  | [c] => if c = g.escape then [.dangling] else [.plain c]
  | c :: d :: rest =>
    if c = g.escape then .pair d :: split g rest
    else if c = g.gap.1 ∧ d = g.gap.2 then .gap :: split g rest
    else .plain c :: split g (d :: rest)

namespace Piece

/-- The piece in normal text. -/
def text (g : Dialect) : Piece → List Char
  | pair c => [g.escape, c]
  | dangling => [g.escape]
  | gap => [g.sentinel]
  | plain c => [c]

/-- Pieces that ask for nothing at either end of a text. -/
def isOuter (g : Dialect) : Piece → Bool
  | gap => true
  | plain c => c == g.sentinel
  | _ => false

def isPair : Piece → Bool
  | pair _ => true
  | _ => false

/-- Before the last piece the escape stands in pairs only. -/
def Inner (g : Dialect) : Piece → Prop
  | dangling => False
  | plain c => c ≠ g.escape
  | _ => True

end Piece

/-- Drops the outer pieces at the end, and then those at the front. -/
def trim (g : Dialect) (ps : List Piece) : List Piece :=
  (ps.reverse.dropWhile (Piece.isOuter g)).reverse.dropWhile (Piece.isOuter g)

/-- The pieces in normal text. -/
def write (g : Dialect) (ps : List Piece) : List Char := ps.flatMap (Piece.text g)

variable {g : Dialect}

@[simp] theorem write_nil : write g [] = [] := rfl

@[simp] theorem write_cons (p : Piece) (ps : List Piece) :
    write g (p :: ps) = p.text g ++ write g ps := rfl

@[simp] theorem write_append (ps qs : List Piece) :
    write g (ps ++ qs) = write g ps ++ write g qs := List.flatMap_append

theorem text_ne_nil (p : Piece) : p.text g ≠ [] := by
  cases p <;> simp [Piece.text]

theorem write_eq_nil {ps : List Piece} : write g ps = [] ↔ ps = [] := by
  cases ps with
  | nil => simp
  | cons p ps => simp [text_ne_nil]

/-- A character that is neither the escape nor the start of a shorthand is a piece. -/
theorem split_cons {c : Char} {text : List Char} (hc : c ≠ g.escape)
    (h : c = g.gap.1 → text.head? ≠ some g.gap.2) :
    split g (c :: text) = .plain c :: split g text := by
  cases text with
  | nil => exact if_neg hc
  | cons d text =>
    have hgap : ¬ (c = g.gap.1 ∧ d = g.gap.2) := fun ⟨hc, hd⟩ => h hc (congrArg some hd)
    rw [split, if_neg hc, if_neg hgap]

/-- Where neither end is an outer piece, trimming drops nothing. -/
theorem trim_of_ends {ps : List Piece} (hhead : ∀ p ∈ ps.head?, p.isOuter g = false)
    (hlast : ∀ p ∈ ps.getLast?, p.isOuter g = false) : trim g ps = ps := by
  have drop : ∀ {qs : List Piece}, (∀ p ∈ qs.head?, p.isOuter g = false) →
      qs.dropWhile (Piece.isOuter g) = qs := by
    intro qs hq
    cases qs with
    | nil => rfl
    | cons p qs => simp [hq p rfl]
  rw [← List.head?_reverse] at hlast
  rw [trim, drop hlast, List.reverse_reverse, drop hhead]

/-! ### Collapsing -/

theorem collapseOnto_eq (done : List Char) (escaped : Bool) (raw : List Char) :
    collapseOnto g done escaped raw =
      ((write g (split g raw)).reverse ++ done,
        (split g raw).foldl (fun _ p => p.isPair) escaped) := by
  fun_induction collapseOnto g done escaped raw with
  | case1 => rfl
  | case2 done escaped c =>
    by_cases hc : c = g.escape
    · simp [split, hc, Piece.text, Piece.isPair]
    · simp [split, hc, Piece.text, Piece.isPair]
  | case3 done escaped d rest ih =>
    rw [ih, split, if_pos rfl]
    simp [Piece.text, Piece.isPair]
  | case4 done escaped c d rest hc hgap ih =>
    rw [ih, split, if_neg hc, if_pos hgap]
    simp [Piece.text, Piece.isPair]
  | case5 done escaped c d rest hc hgap ih =>
    rw [ih, split, if_neg hc, if_neg hgap]
    simp [Piece.text, Piece.isPair]

/-- Only the last piece can be an escape that is left alone. -/
theorem inner_of_mem_dropLast (raw : List Char) :
    ∀ p ∈ (split g raw).dropLast, p.Inner g := by
  have step : ∀ {p : Piece} {ps : List Piece}, p.Inner g → (∀ q ∈ ps.dropLast, q.Inner g) →
      ∀ q ∈ (p :: ps).dropLast, q.Inner g := by
    intro p ps hp hps
    cases ps with
    | nil => exact nofun
    | cons q ps => exact List.forall_mem_cons.mpr ⟨hp, hps⟩
  fun_induction split g raw with
  | case1 => exact nofun
  | case2 => exact nofun
  | case3 => exact nofun
  | case4 _ _ ih => exact step trivial ih
  | case5 _ _ _ _ _ ih => exact step trivial ih
  | case6 _ _ _ hc _ ih => exact step hc ih

/-! ### Trimming the end

The end is trimmed on characters, last one first.  The pieces are taken in that order too. -/

/-- The text of the pieces, last character first, if they are given last one first. -/
def writeBack (g : Dialect) (rs : List Piece) : List Char :=
  rs.flatMap fun p => (p.text g).reverse

@[simp] theorem writeBack_nil : writeBack g [] = [] := rfl

@[simp] theorem writeBack_cons (p : Piece) (rs : List Piece) :
    writeBack g (p :: rs) = (p.text g).reverse ++ writeBack g rs := rfl

theorem writeBack_reverse (ps : List Piece) :
    writeBack g ps.reverse = (write g ps).reverse := by
  rw [writeBack, write, List.reverse_flatMap]
  rfl

/-- The escapes that a text of whole pieces ends with stand in pairs. -/
theorem even_escapes (hg : g.sentinel ≠ g.escape) {rs : List Piece}
    (h : ∀ p ∈ rs, p.Inner g) :
    ((writeBack g rs).takeWhile (· == g.escape)).length % 2 = 0 := by
  induction rs with
  | nil => rfl
  | cons p rs ih =>
    obtain ⟨hp, hrs⟩ := List.forall_mem_cons.mp h
    cases p with
    | pair c =>
      by_cases hc : c = g.escape
      · have := ih hrs
        simp only [writeBack_cons, Piece.text, hc, List.reverse_cons, List.reverse_nil,
          List.nil_append, List.cons_append, List.takeWhile_cons, beq_self_eq_true, if_true,
          List.length_cons]
        omega
      · simp [Piece.text, hc]
    | dangling => cases hp
    | gap => simp [Piece.text, hg]
    | plain c =>
      have hc : c ≠ g.escape := hp
      simp [Piece.text, hc]

/-- The number of escapes before the last character tells whether it is in a pair. -/
theorem lastIsEscaped_eq (hg : g.sentinel ≠ g.escape) (p : Piece) {rs : List Piece}
    (h : ∀ q ∈ rs, q.Inner g) : lastIsEscaped g (writeBack g (p :: rs)) = p.isPair := by
  have heven := even_escapes hg h
  cases p with
  | pair c =>
    simp only [writeBack_cons, Piece.text, List.reverse_cons, List.reverse_nil, List.nil_append,
      List.cons_append, lastIsEscaped, List.takeWhile_cons, beq_self_eq_true, if_true,
      List.length_cons, Piece.isPair, beq_iff_eq]
    omega
  | dangling => simp [Piece.text, lastIsEscaped, Piece.isPair, heven]
  | gap => simp [Piece.text, lastIsEscaped, Piece.isPair, heven]
  | plain c => simp [Piece.text, lastIsEscaped, Piece.isPair, heven]

theorem trimEnd_eq (hg : g.sentinel ≠ g.escape) (rs : List Piece)
    (h : ∀ p ∈ rs.tail, p.Inner g) :
    trimEnd g (writeBack g rs) (rs.foldr (fun p _ => p.isPair) false) =
      writeBack g (rs.dropWhile (Piece.isOuter g)) := by
  induction rs with
  | nil => rfl
  | cons p rs ih =>
    have htail : ∀ q ∈ rs.tail, q.Inner g := fun q hq => h q (List.mem_of_mem_tail hq)
    -- an outer piece is dropped, and the flag is found again for what is before it
    have outer : trimEnd g (writeBack g rs) (lastIsEscaped g (writeBack g rs)) =
        writeBack g (rs.dropWhile (Piece.isOuter g)) := by
      rw [← ih htail]
      cases rs with
      | nil => rfl
      | cons q rs =>
        have hflag : lastIsEscaped g (writeBack g (q :: rs)) = q.isPair :=
          lastIsEscaped_eq hg q htail
        rw [hflag]
        rfl
    cases p with
    | pair c => simp [Piece.text, Piece.isPair, Piece.isOuter, trimEnd]
    | dangling => simp [Piece.text, Piece.isPair, Piece.isOuter, trimEnd, hg.symm]
    | gap => simp [Piece.text, Piece.isPair, Piece.isOuter, List.dropWhile_cons, trimEnd, outer]
    | plain c =>
      by_cases hc : c = g.sentinel
      · simp [Piece.text, Piece.isPair, Piece.isOuter, trimEnd, hc, outer]
      · simp [Piece.text, Piece.isPair, Piece.isOuter, trimEnd, hc]

theorem dropWhile_write (hg : g.sentinel ≠ g.escape) (ps : List Piece) :
    (write g ps).dropWhile (· == g.sentinel) = write g (ps.dropWhile (Piece.isOuter g)) := by
  induction ps with
  | nil => rfl
  | cons p ps ih =>
    cases p with
    | pair c => simp [Piece.text, Piece.isOuter, hg.symm]
    | dangling => simp [Piece.text, Piece.isOuter, hg.symm]
    | gap => simp [Piece.text, Piece.isOuter, List.dropWhile_cons, ih]
    | plain c => by_cases hc : c = g.sentinel <;> simp [Piece.text, Piece.isOuter, hc, ih]

/-- What is normal of a raw text are the pieces that are left after trimming. -/
theorem normalize_eq (hg : g.sentinel ≠ g.escape) (raw : List Char) :
    normalize g raw =
      if trim g (split g raw) = [] then .error .emptyExpression
      else .ok (write g (trim g (split g raw))) := by
  have htail : ∀ p ∈ (split g raw).reverse.tail, p.Inner g := by
    rw [List.tail_reverse]
    exact fun p hp => inner_of_mem_dropLast raw p (List.mem_reverse.mp hp)
  have hend := trimEnd_eq hg _ htail
  rw [writeBack_reverse, List.foldr_reverse] at hend
  have hwrite : (trimEnd g (write g (split g raw)).reverse
      ((split g raw).foldl (fun _ p => p.isPair) false)).reverse.dropWhile (· == g.sentinel) =
      write g (trim g (split g raw)) := by
    rw [hend, trim, ← dropWhile_write hg,
      ← List.reverse_reverse ((split g raw).reverse.dropWhile _), writeBack_reverse]
    simp
  unfold normalize
  rw [collapseOnto_eq]
  simp only [List.append_nil, hwrite]
  by_cases h : trim g (split g raw) = []
  · simp [h]
  · rw [if_neg h]
    obtain ⟨c, u, hu⟩ := List.exists_cons_of_ne_nil (mt write_eq_nil.mp h)
    rw [hu]

end GapRegex.NormalForm
