import Mathlib.Data.List.Chain
import Mathlib.Data.List.TakeWhile
import GapRegex.Parser.Basic
import GapRegex.Proofs.NormalText

/-!
# Stability — what more normalizing and more outer gaps change

Nothing, in both cases.  A normal form is cut into the pieces that were kept, with a bare sentinel
for each gap: where it stands now, no shorthand and no escape begins or ends that did not before,
if the sentinel is none of their characters.  And whatever gaps are put around a text are trimmed
again, if the text leaves no escape alone at its end, which would take the first of them for a
literal.
* `split_write`: how written pieces are cut, if they can stand side by side (`Beside`);
* `normalize_normal`: a normal form is its own normal form;
* `normalize_surrounded`: outer gaps are dropped, in every dialect that keeps its characters apart;
* `normalize_stable`: so neither is seen by the parser.
-/

namespace GapRegex.NormalForm

variable {g : Dialect} {raw s : List Char}

/-! ### Pieces side by side -/

/-- The second piece can follow the first in a text that is cut: the first is no escape that is
left alone, and the seam does not make a shorthand. -/
def Beside (g : Dialect) (p q : Piece) : Prop :=
  p ≠ .dangling ∧ (p = .plain g.gap.1 → (q.rawText g).head? ≠ some g.gap.2)

theorem head_rawText {p : Piece} {ps : List Piece} {text : List Char}
    (h : (p :: ps).flatMap (Piece.rawText g) = text) : (p.rawText g).head? = text.head? := by
  rw [← h, List.flatMap_cons, List.head?_append]
  cases p <;> rfl

theorem beside_pair (d : Char) (q : Piece) : Beside g (.pair d) q := by
  simp [Beside]

theorem beside_gap (q : Piece) : Beside g .gap q := by
  simp [Beside]

theorem isChain_split (g : Dialect) (raw : List Char) : (split g raw).IsChain (Beside g) := by
  fun_induction split g raw with
  | case1 => exact .nil
  | case2 => exact .singleton _
  | case3 => exact .singleton _
  | case4 d rest ih => exact List.isChain_cons.mpr ⟨fun q _ => beside_pair d q, ih⟩
  | case5 c d rest hc hgap ih => exact List.isChain_cons.mpr ⟨fun q _ => beside_gap q, ih⟩
  | case6 c d rest hc hgap ih =>
    refine List.isChain_cons.mpr ⟨fun q hq => ⟨by simp, fun hp => ?_⟩, ih⟩
    have htext := flatMap_rawText_split g (d :: rest)
    cases hps : split g (d :: rest) with
    | nil => rw [hps] at hq; cases hq
    | cons p ps =>
      rw [hps] at hq htext
      obtain rfl : p = q := Option.some.inj hq
      rw [head_rawText htext]
      exact fun hd => hgap ⟨Piece.plain.inj hp, Option.some.inj hd⟩

/-- The piece that is cut from a normal text where this one was cut from the raw text. -/
def Piece.settled (g : Dialect) : Piece → Piece
  | gap => plain g.sentinel
  | p => p

@[simp] theorem text_settled (p : Piece) : (p.settled g).text g = p.text g := by
  cases p <;> rfl

@[simp] theorem isOuter_settled (p : Piece) : (p.settled g).isOuter g = p.isOuter g := by
  cases p <;> simp [Piece.settled, Piece.isOuter]

@[simp] theorem write_settled (ps : List Piece) :
    write g (ps.map (Piece.settled g)) = write g ps := by
  simp [write, List.flatMap_map]

theorem head_write {p : Piece} {ps : List Piece} :
    (write g (p :: ps)).head? = (p.text g).head? := by
  cases p <;> rfl

/-- What is written of pieces that can stand side by side is cut into these pieces again. -/
theorem split_write (hesc : g.sentinel ≠ g.escape) (h₁ : g.sentinel ≠ g.gap.1)
    (h₂ : g.sentinel ≠ g.gap.2) {ps : List Piece} (hbare : ∀ c, .plain c ∈ ps → c ≠ g.escape)
    (hchain : ps.IsChain (Beside g)) : split g (write g ps) = ps.map (Piece.settled g) := by
  induction ps with
  | nil => rfl
  | cons p ps ih =>
    obtain ⟨hnext, hps⟩ := List.isChain_cons.mp hchain
    have hrest := ih (fun c hc => hbare c (List.mem_cons_of_mem _ hc)) hps
    cases p with
    | pair c => rw [write_cons, List.map_cons, ← hrest]; exact if_pos rfl
    | dangling =>
      cases ps with
      | nil => exact if_pos rfl
      | cons q ps => exact absurd rfl (hnext q rfl).1
    | gap =>
      rw [List.map_cons, ← hrest]
      exact split_cons hesc fun h => absurd h h₁
    | plain c =>
      have hseam : c = g.gap.1 → (write g ps).head? ≠ some g.gap.2 := by
        intro hc
        cases ps with
        | nil => simp
        | cons q ps =>
          have hq := (hnext q rfl).2 (congrArg Piece.plain hc)
          rw [head_write]
          cases q with
          | gap => exact fun h => h₂ (Option.some.inj h)
          | _ => exact hq
      rw [List.map_cons, ← hrest]
      exact split_cons (hbare c (List.mem_cons_self ..)) hseam

/-! ### Normal forms of normal forms -/

theorem trim_settled (ps : List Piece) :
    trim g (ps.map (Piece.settled g)) = (trim g ps).map (Piece.settled g) := by
  have houter : Piece.isOuter g ∘ Piece.settled g = Piece.isOuter g := by
    funext p
    exact isOuter_settled p
  rw [trim, trim, ← List.map_reverse, List.dropWhile_map, ← List.map_reverse, List.dropWhile_map,
    houter]

/-- A normal form is its own normal form. -/
theorem normalize_normal (hesc : g.sentinel ≠ g.escape) (h₁ : g.sentinel ≠ g.gap.1)
    (h₂ : g.sentinel ≠ g.gap.2) (h : normalize g raw = .ok s) : normalize g s = .ok s := by
  obtain ⟨front, back, hps, -, -, hhead, hlast⟩ := exists_trim g (split g raw)
  have hbare : ∀ c, .plain c ∈ trim g (split g raw) → c ≠ g.escape := by
    intro c hc
    refine ne_escape_of_plain_mem (s := raw) ?_
    rw [hps]
    exact List.mem_append_left _ (List.mem_append_right _ hc)
  have hchain : (trim g (split g raw)).IsChain (Beside g) := by
    have h := isChain_split g raw
    rw [hps] at h
    exact h.left_of_append.right_of_append
  have hcut := split_write hesc h₁ h₂ hbare hchain
  rw [normalize_eq hesc] at h
  split at h
  · cases h
  · next hne =>
    injection h with h
    rw [← h, normalize_eq hesc, hcut, trim_settled, trim_of_ends hhead hlast, write_settled,
      if_neg (by simpa using hne)]

/-! ### Outer gaps -/

/-- A text of gap shorthands and bare sentinels. -/
inductive GapText (g : Dialect) : List Char → Prop
  | nil : GapText g []
  | shorthand {p : List Char} (hp : GapText g p) : GapText g (g.gap.1 :: g.gap.2 :: p)
  | sentinel {p : List Char} (hp : GapText g p) : GapText g (g.sentinel :: p)

theorem GapText.split_append (hesc : g.sentinel ≠ g.escape) (h₁ : g.sentinel ≠ g.gap.1)
    (hgap : g.gap.1 ≠ g.escape) {p : List Char} (hp : GapText g p) (text : List Char) :
    ∃ ps, split g (p ++ text) = ps ++ split g text ∧ ∀ q ∈ ps, q.isOuter g = true := by
  induction hp with
  | nil => exact ⟨[], rfl, nofun⟩
  | shorthand _ ih =>
    obtain ⟨ps, hps, houter⟩ := ih
    refine ⟨.gap :: ps, ?_, List.forall_mem_cons.mpr ⟨rfl, houter⟩⟩
    rw [List.cons_append, List.cons_append, split, if_neg hgap, if_pos ⟨rfl, rfl⟩, hps]
    rfl
  | sentinel _ ih =>
    obtain ⟨ps, hps, houter⟩ := ih
    refine ⟨.plain g.sentinel :: ps, ?_, List.forall_mem_cons.mpr ⟨by simp [Piece.isOuter], houter⟩⟩
    rw [List.cons_append, split_cons hesc (fun h => absurd h h₁), hps]
    rfl

theorem GapText.head {p : List Char} (hp : GapText g p) :
    p.head? = none ∨ p.head? = some g.gap.1 ∨ p.head? = some g.sentinel := by
  cases hp with
  | nil => exact Or.inl rfl
  | shorthand => exact Or.inr (Or.inl rfl)
  | sentinel => exact Or.inr (Or.inr rfl)

/-- Trimming drops outer pieces, however many there are. -/
theorem trim_surrounded {front ps back : List Piece} (hfront : ∀ p ∈ front, p.isOuter g = true)
    (hback : ∀ p ∈ back, p.isOuter g = true) : trim g (front ++ ps ++ back) = trim g ps := by
  have hback' : ∀ p ∈ back.reverse, p.isOuter g = true :=
    fun p hp => hback p (List.mem_reverse.mp hp)
  have hfront' : front.reverse.dropWhile (Piece.isOuter g) = [] :=
    List.dropWhile_eq_nil_iff.mpr fun p hp => hfront p (List.mem_reverse.mp hp)
  rw [trim, trim, List.reverse_append, List.reverse_append,
    List.dropWhile_append_of_pos hback', List.dropWhile_append, hfront']
  split
  · next h => rw [List.isEmpty_iff.mp h]
  · rw [List.reverse_append, List.reverse_reverse, List.dropWhile_append_of_pos hfront]

/-- Gaps around a text are dropped. -/
theorem normalize_surrounded (hesc : g.sentinel ≠ g.escape) (h₁ : g.sentinel ≠ g.gap.1)
    (h₂ : g.sentinel ≠ g.gap.2) (hgap : g.gap.1 ≠ g.escape) (hne : g.gap.1 ≠ g.gap.2)
    (hraw : Piece.dangling ∉ split g raw) {p q : List Char} (hp : GapText g p)
    (hq : GapText g q) : normalize g (p ++ raw ++ q) = normalize g raw := by
  have hseam : q.head? ≠ some g.gap.2 := by
    rcases hq.head with h | h | h
    · rw [h]
      exact nofun
    · rw [h]
      exact fun h => hne (Option.some.inj h)
    · rw [h]
      exact fun h => h₂ (Option.some.inj h)
  obtain ⟨front, hfront, houter⟩ := hp.split_append hesc h₁ hgap (raw ++ q)
  obtain ⟨back, hback, houter'⟩ := hq.split_append hesc h₁ hgap []
  have hsplit : split g (p ++ raw ++ q) = front ++ split g raw ++ back := by
    rw [List.append_nil] at hback
    rw [List.append_assoc, hfront, NormalForm.split_append hraw hseam, hback, List.append_assoc]
    simp [split]
  rw [normalize_eq hesc, normalize_eq hesc, hsplit, trim_surrounded houter houter']

/-! ### What the parser sees -/

/-- A normal form is parsed as the raw text it comes from, and it is its own normal form.  In the
standard dialect a text is parsed as it is without outer gaps. -/
theorem normalize_stable (g : Dialect) (raw : List Char) :
    (g.sentinel ≠ g.escape → g.sentinel ≠ g.gap.1 → g.sentinel ≠ g.gap.2 →
      ∀ s, normalize g raw = .ok s →
        normalize g s = .ok s ∧ Pattern.parseWith g s = Pattern.parseWith g raw) ∧
      (Piece.dangling ∉ split .standard raw →
        ∀ p q, GapText .standard p → GapText .standard q →
          Pattern.parse (p ++ raw ++ q) = Pattern.parse raw) := by
  refine ⟨fun hesc h₁ h₂ s hs => ?_, fun hraw p q hp hq => ?_⟩
  · have hnormal := normalize_normal hesc h₁ h₂ hs
    refine ⟨hnormal, ?_⟩
    rw [Pattern.parseWith, Pattern.parseWith, hs, hnormal]
  · have hsame : normalize .standard (p ++ raw ++ q) = normalize .standard raw :=
      normalize_surrounded (by decide) (by decide) (by decide) (by decide) (by decide) hraw hp hq
    rw [Pattern.parse, Pattern.parse, Pattern.parseWith, Pattern.parseWith, hsame]

/-- A gap between a full stop and an escaped star, and an escaped sentinel before a bare one. -/
theorem normalize_stable_seams :
    normalize .standard ['a', '.', '.', '*', '\\', '*', '\\', '@', '@'] =
        .ok ['a', '.', '@', '\\', '*', '\\', '@'] ∧
      normalize .standard ['a', '.', '@', '\\', '*', '\\', '@'] =
        .ok ['a', '.', '@', '\\', '*', '\\', '@'] ∧
      Pattern.parse (['.', '*', '@'] ++ ['a', '.', '.', '*', '\\', '*', '\\', '@', '@'] ++
          ['@', '.', '*']) =
        Pattern.parse ['a', '.', '.', '*', '\\', '*', '\\', '@', '@'] := by
  obtain ⟨hnormal, hgaps⟩ :=
    normalize_stable .standard ['a', '.', '.', '*', '\\', '*', '\\', '@', '@']
  obtain ⟨hsame, -⟩ := hnormal (by decide) (by decide) (by decide) _ rfl
  exact ⟨rfl, hsame,
    hgaps (by decide) _ _ (.shorthand (.sentinel .nil)) (.sentinel (.shorthand .nil))⟩

end GapRegex.NormalForm
