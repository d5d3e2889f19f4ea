import GapRegex.CharSet.Lemmas
import GapRegex.Pattern.Printer
import GapRegex.Proofs.Pieces
import GapRegex.Proofs.WellFormed

/-!
# PrintedText — the normal form of what the printer writes

The text of a pattern holds a gap shorthand for each gap and nowhere else: a full stop is written
after the escape, and in a class the members ascend, so that a star never follows a full stop.
Nor can an end of the text be trimmed, for a bare sentinel stands inside a class only, and a gap
between two texts that are not empty.
* `Renders`: a text that is cut on its own whatever follows it, with its normal form;
* `renders_text`: what is printed renders `normalText`, the same text with sentinels for gaps;
* `normalize_text`: this is the normal form of what is printed.
-/

namespace GapRegex

open NormalForm

/-! ### Texts that are cut on their own -/

/-- The text is cut into these pieces whatever follows it. -/
def Cuts (raw : List Char) (ps : List Piece) : Prop :=
  ∀ rest, split .standard (raw ++ rest) = ps ++ split .standard rest

/-- Neither end is dropped by trimming. -/
def Firm (ps : List Piece) : Prop :=
  (∀ p ∈ ps.head?, p.isOuter .standard = false) ∧
    ∀ p ∈ ps.getLast?, p.isOuter .standard = false

theorem Cuts.append {a b : List Char} {ps qs : List Piece} (ha : Cuts a ps) (hb : Cuts b qs) :
    Cuts (a ++ b) (ps ++ qs) := by
  intro rest
  rw [List.append_assoc, ha, hb, List.append_assoc]

theorem cuts_plain {c : Char} (hc : c ≠ '\\') (hd : c ≠ '.') : Cuts [c] [.plain c] :=
  fun _ => split_cons hc fun h => absurd h hd

theorem cuts_pair (c : Char) : Cuts ['\\', c] [.pair c] := fun _ => if_pos rfl

theorem cuts_gap : Cuts ['.', '*'] [.gap] := by
  intro rest
  rw [List.cons_append, List.cons_append, split, if_neg (by decide), if_pos ⟨rfl, rfl⟩]
  rfl

theorem firm_plain {c : Char} (h : c ≠ '@') : Firm [.plain c] := by
  simp [Firm, Piece.isOuter, Dialect.standard, h]

theorem Firm.surround {ps qs : List Piece} (ms : List Piece) (hp : Firm ps) (hp' : ps ≠ [])
    (hq : Firm qs) (hq' : qs ≠ []) : Firm (ps ++ (ms ++ qs)) := by
  obtain ⟨p, ps, rfl⟩ := List.exists_cons_of_ne_nil hp'
  refine ⟨hp.1, ?_⟩
  have hlast : (p :: ps ++ (ms ++ qs)).getLast? = qs.getLast? := by
    rw [List.getLast?_append, List.getLast?_append, List.getLast?_eq_some_getLast hq']
    rfl
  rw [hlast]
  exact hq.2

theorem Firm.append {ps qs : List Piece} (hp : Firm ps) (hq : Firm qs) : Firm (ps ++ qs) := by
  by_cases hp' : ps = []
  · subst hp'
    exact hq
  · by_cases hq' : qs = []
    · subst hq'
      simpa using hp
    · exact hp.surround [] hp' hq hq'

theorem trim_of_firm {ps : List Piece} (h : Firm ps) : trim .standard ps = ps :=
  trim_of_ends h.1 h.2

/-- The character is no marker, and part of no gap or escape. -/
def isPlain (c : Char) : Bool := c != '\\' && c != '.' && c != '@'

theorem isPlain_iff {c : Char} : isPlain c = true ↔ c ≠ '\\' ∧ c ≠ '.' ∧ c ≠ '@' := by
  simp [isPlain, and_assoc]

theorem isPlain_of_isDigit {c : Char} (h : c.isDigit = true) : isPlain c = true := by
  refine isPlain_iff.mpr ⟨?_, ?_, ?_⟩ <;> rintro rfl <;> cases h

theorem isPlain_of_mem_bounds {ds es : List Char} {m n : Nat} (hm : IsNumber ds m)
    (hn : IsNumber es n) : ∀ c ∈ boundsText ds es, isPlain c = true := by
  have digits : ∀ {ds : List Char} {n : Nat}, IsNumber ds n → ∀ c ∈ ds, isPlain c = true :=
    fun hd c hc => isPlain_of_isDigit (hd.2.1 c hc)
  have hleast : ∀ c ∈ '{' :: ds, isPlain c = true :=
    List.forall_mem_cons.mpr ⟨rfl, digits hm⟩
  have hgreatest : ∀ c ∈ ',' :: es, isPlain c = true :=
    List.forall_mem_cons.mpr ⟨rfl, digits hn⟩
  exact List.forall_mem_append.mpr
    ⟨List.forall_mem_append.mpr ⟨hleast, hgreatest⟩, List.forall_mem_singleton.mpr rfl⟩

/-- The text is cut on its own, neither end of it is trimmed, and this is its normal form. -/
def Renders (raw normal : List Char) : Prop :=
  ∃ ps, Cuts raw ps ∧ Firm ps ∧ write .standard ps = normal

namespace Renders

variable {a a' b b' : List Char}

theorem nil : Renders [] [] := ⟨[], fun _ => rfl, by simp [Firm], rfl⟩

theorem append (ha : Renders a a') (hb : Renders b b') : Renders (a ++ b) (a' ++ b') := by
  obtain ⟨ps, hp, fp, rfl⟩ := ha
  obtain ⟨qs, hq, fq, rfl⟩ := hb
  exact ⟨ps ++ qs, hp.append hq, fp.append fq, write_append ps qs⟩

/-- Between two texts that are not empty any pieces may stand. -/
theorem surround {m : List Char} {ms : List Piece} (ha : Renders a a') (ha' : a' ≠ [])
    (hm : Cuts m ms) (hb : Renders b b') (hb' : b' ≠ []) :
    Renders (a ++ (m ++ b)) (a' ++ (write .standard ms ++ b')) := by
  obtain ⟨ps, hp, fp, rfl⟩ := ha
  obtain ⟨qs, hq, fq, rfl⟩ := hb
  refine ⟨ps ++ (ms ++ qs), hp.append (hm.append hq), ?_, by simp⟩
  exact fp.surround ms (mt write_eq_nil.mpr ha') fq (mt write_eq_nil.mpr hb')

theorem flatMap {f : Char → List Char} {cs : List Char} (h : ∀ c ∈ cs, Renders (f c) (f c)) :
    Renders (cs.flatMap f) (cs.flatMap f) := by
  induction cs with
  | nil => exact nil
  | cons c cs ih =>
    obtain ⟨hc, hcs⟩ := List.forall_mem_cons.mp h
    exact hc.append (ih hcs)

theorem plain {c : Char} (h : isPlain c = true) : Renders [c] [c] := by
  obtain ⟨hc, hd, ha⟩ := isPlain_iff.mp h
  exact ⟨[.plain c], cuts_plain hc hd, firm_plain ha, rfl⟩

theorem plains {cs : List Char} (h : ∀ c ∈ cs, isPlain c = true) : Renders cs cs := by
  have := flatMap (f := fun c => [c]) fun c hc => plain (h c hc)
  rwa [List.flatMap_singleton'] at this

theorem pair (c : Char) : Renders ['\\', c] ['\\', c] :=
  ⟨[.pair c], cuts_pair c, by simp [Firm, Piece.isOuter], rfl⟩

/-- A text that is cut on its own does not change the normal form of what follows it. -/
theorem normalize_append (h : Renders a a') {s : List Char} (hs : Firm (split .standard s))
    (hne : a' ++ write .standard (split .standard s) ≠ []) :
    normalize .standard (a ++ s) = .ok (a' ++ write .standard (split .standard s)) := by
  obtain ⟨ps, hp, fp, rfl⟩ := h
  rw [← write_append] at hne ⊢
  rw [NormalForm.normalize_eq (by decide), hp, trim_of_firm (fp.append hs),
    if_neg (mt write_eq_nil.mpr hne)]

theorem normalize_eq (h : Renders a a') (hne : a' ≠ []) : normalize .standard a = .ok a' := by
  have hfirm : Firm (split .standard []) := by simp [Firm, split]
  simpa [split] using h.normalize_append hfirm (by simpa [split] using hne)

end Renders

/-! ### Leaves of the printer -/

namespace Pattern

theorem quoteLiteral_cases (c : Char) : quoteLiteral c = ['\\', c] ∨
    quoteLiteral c = [c] ∧ Dialect.standard.isReserved c = false ∧ c ≠ '\\' ∧ c ≠ '.' := by
  unfold quoteLiteral Literal.text
  dsimp only
  split
  · exact Or.inl rfl
  · rename_i h
    simp only [Bool.not_eq_true, Bool.or_eq_false_iff, beq_eq_false_iff_ne] at h
    exact Or.inr ⟨rfl, h.1.1, h.1.2, h.2⟩

theorem quoteLiteral_ne_nil (c : Char) : quoteLiteral c ≠ [] := by
  rcases quoteLiteral_cases c with h | ⟨h, -⟩ <;> simp [h]

theorem renders_quoteLiteral (c : Char) : Renders (quoteLiteral c) (quoteLiteral c) := by
  rcases quoteLiteral_cases c with h | ⟨h, hr, hb, hd⟩
  · rw [h]
    exact .pair c
  · rw [h]
    refine .plain (isPlain_iff.mpr ⟨hb, hd, ?_⟩)
    rintro rfl
    cases hr

theorem quoteMember_cases (c : Char) :
    quoteMember c = ['\\', c] ∨ quoteMember c = [c] ∧ c ≠ '\\' := by
  unfold quoteMember Literal.text
  dsimp only
  split
  · exact Or.inl rfl
  · rename_i h
    simp only [Bool.not_eq_true, Bool.or_eq_false_iff, beq_eq_false_iff_ne] at h
    exact Or.inr ⟨rfl, h.2⟩

/-- In a class nothing is cut off together with a full stop: the members ascend, and a star comes
before a full stop. -/
theorem split_members {cs : List Char} (h : cs.Pairwise (· < ·)) :
    ∃ ms, write .standard ms = cs.flatMap quoteMember ∧ ∀ rest,
      split .standard (cs.flatMap quoteMember ++ ']' :: rest) =
        ms ++ .plain ']' :: split .standard rest := by
  induction cs with
  | nil => exact ⟨[], rfl, cuts_plain (by decide) (by decide)⟩
  | cons c cs ih =>
    obtain ⟨hc, hcs⟩ := List.pairwise_cons.mp h
    obtain ⟨ms, hw, hm⟩ := ih hcs
    rw [List.flatMap_cons]
    rcases quoteMember_cases c with hq | ⟨hq, hb⟩
    · refine ⟨.pair c :: ms, by rw [hq, write_cons, hw]; rfl, fun rest => ?_⟩
      rw [hq, List.append_assoc, cuts_pair, hm]
      rfl
    · refine ⟨.plain c :: ms, by rw [hq, write_cons, hw]; rfl, fun rest => ?_⟩
      have hstar : c = '.' → (cs.flatMap quoteMember ++ ']' :: rest).head? ≠ some '*' := by
        rintro rfl
        cases cs with
        | nil => simp
        | cons d cs =>
          have hd : d ≠ '*' := by
            rintro rfl
            exact absurd (hc '*' (by simp)) (by decide)
          rcases quoteMember_cases d with hq' | ⟨hq', -⟩
          · simp [hq']
          · simp [hq', hd]
      rw [hq, List.append_assoc, List.singleton_append, split_cons hb hstar, hm]
      rfl

theorem renders_classText (members : CharSet) (repeated : Bool) :
    Renders (classText members repeated) (classText members repeated) := by
  obtain ⟨ms, hw, hm⟩ := split_members members.toList_pairwise
  have hmark : Renders (if repeated then ['+'] else []) (if repeated then ['+'] else []) := by
    cases repeated with
    | true => exact .plain rfl
    | false => exact .nil
  obtain ⟨qs, hq, fq, hwq⟩ := hmark
  have hfirm : Firm ([.plain '['] ++ (ms ++ ([.plain ']'] ++ qs))) := by
    refine Firm.surround ms (firm_plain (by decide)) (by simp) ?_ (by simp)
    exact (firm_plain (by decide)).append fq
  refine ⟨_, fun rest => ?_, hfirm, ?_⟩
  · rw [classText, List.append_assoc, List.cons_append, List.cons_append,
      split_cons (by decide) (fun h => absurd h (by decide)), hm, hq]
    simp
  · simp only [write_append, hw, hwq]
    simp [classText, Piece.text]

theorem renders_times (times : Repetition) : Renders times.text times.text := by
  cases times with
  | zeroOrMore => exact .plain rfl
  | oneOrMore => exact .plain rfl
  | between m n =>
    exact .plains (isPlain_of_mem_bounds (isNumber_toDigits m) (isNumber_toDigits n))

/-! ### The normal form of a printed pattern -/

/-- The text of a pattern with the sentinel for each gap. -/
def normalText : Pattern → List Char
  | blank => []
  | literal s => s.flatMap quoteLiteral
  | concat left right => left.termText left.normalText ++ left.followText right right.normalText
  | union left right => left.termText left.normalText ++ '|' :: right.normalText
  | repetition inner times => parenthesized inner.normalText ++ times.text
  | gap before after =>
    before.termText before.normalText ++ '@' :: after.factorText after.normalText
  | charClass before after members repeated =>
    before.termText before.normalText ++ classText members repeated ++
      after.factorText after.normalText

theorem parenthesized_ne_nil (text : List Char) : parenthesized text ≠ [] := by
  simp [parenthesized]

theorem termText_ne_nil (p : Pattern) {text : List Char} (h : text ≠ []) :
    p.termText text ≠ [] := by
  cases p with
  | union => exact parenthesized_ne_nil text
  | _ => exact h

theorem factorText_ne_nil (p : Pattern) {text : List Char} (h : text ≠ []) :
    p.factorText text ≠ [] := by
  unfold factorText
  split
  · exact h
  · exact h
  · exact h
  · exact parenthesized_ne_nil text

theorem normalText_ne_nil {p : Pattern} (h : p.WellFormed) (hb : p ≠ blank) :
    p.normalText ≠ [] := by
  induction p with
  | blank => exact absurd rfl hb
  | literal s =>
    obtain ⟨c, s, rfl⟩ := List.exists_cons_of_ne_nil (wellFormed_literal.mp h)
    simp [normalText, quoteLiteral_ne_nil]
  | concat left right ihl =>
    obtain ⟨⟨hl, -, -⟩, hl', -⟩ := wellFormed_concat.mp h
    simp [normalText, termText_ne_nil left (ihl hl' hl)]
  | union => simp [normalText]
  | repetition => simp [normalText, parenthesized]
  | gap => simp [normalText]
  | charClass => simp [normalText, classText]

theorem renders_parenthesized {a a' : List Char} (h : Renders a a') :
    Renders (parenthesized a) (parenthesized a') := by
  have hopen : Renders ['('] ['('] := .plain rfl
  have hclose : Renders [')'] [')'] := .plain rfl
  exact hopen.append (h.append hclose)

theorem renders_termText (p : Pattern) {a a' : List Char} (h : Renders a a') :
    Renders (p.termText a) (p.termText a') := by
  cases p with
  | union => exact renders_parenthesized h
  | _ => exact h

theorem renders_factorText (p : Pattern) {a a' : List Char} (h : Renders a a') :
    Renders (p.factorText a) (p.factorText a') := by
  cases p with
  | blank | literal | repetition => exact h
  | _ => exact renders_parenthesized h

theorem renders_followText (left p : Pattern) {a a' : List Char} (h : Renders a a') :
    Renders (left.followText p a) (left.followText p a') := by
  unfold followText
  split
  · exact (renders_parenthesized .nil).append (renders_factorText _ h)
  · exact renders_parenthesized h
  · exact renders_factorText p h

theorem renders_text {p : Pattern} (h : p.WellFormed) : Renders p.text p.normalText := by
  induction p with
  | blank => exact .nil
  | literal s => exact .flatMap fun c _ => renders_quoteLiteral c
  | concat left right ihl ihr =>
    obtain ⟨-, hl, hr⟩ := wellFormed_concat.mp h
    exact (renders_termText left (ihl hl)).append (renders_followText left right (ihr hr))
  | union left right ihl ihr =>
    obtain ⟨-, hl, hr⟩ := wellFormed_union.mp h
    have hbar : Renders ['|'] ['|'] := .plain rfl
    exact (renders_termText left (ihl hl)).append (hbar.append (ihr hr))
  | repetition inner times ih =>
    obtain ⟨-, hi⟩ := wellFormed_repetition.mp h
    exact (renders_parenthesized (ih hi)).append (renders_times times)
  | gap before after ihb iha =>
    obtain ⟨⟨hb', ha'⟩, hb, ha⟩ := wellFormed_gap.mp h
    exact (renders_termText before (ihb hb)).surround
      (termText_ne_nil before (normalText_ne_nil hb hb')) cuts_gap
      (renders_factorText after (iha ha)) (factorText_ne_nil after (normalText_ne_nil ha ha'))
  | charClass before after members repeated ihb iha =>
    obtain ⟨hb, ha⟩ := wellFormed_charClass.mp h
    exact ((renders_termText before (ihb hb)).append (renders_classText members repeated)).append
      (renders_factorText after (iha ha))

theorem normalize_text {p : Pattern} (h : p.WellFormed) (hb : p ≠ blank) :
    normalize .standard p.text = .ok p.normalText :=
  (renders_text h).normalize_eq (normalText_ne_nil h hb)

end Pattern

end GapRegex
