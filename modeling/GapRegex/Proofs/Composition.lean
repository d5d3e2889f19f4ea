import Mathlib.Control.Monad.Basic
import GapRegex.Proofs.NormalText
import GapRegex.Proofs.RoundTrip

/-!
# Composition — expressions inside larger expressions

An expression that is parsed on its own can be put between parentheses, and these into a larger
expression.  Neither step of parsing looks across the seams.
* `Reads.append`: what is read up to the end of a text is read there too if a parenthesis or a bar
  stands behind it, in every dialect;
* `Reads.whole`: no escape is left alone in a text that is read, so that it is cut on its own;
* `Component`: what is known of a normal text that has a pattern;
* `parse_compose`: the pattern of each way to put two such texts together.
-/

namespace GapRegex

open NormalForm

namespace Parser

variable {g : Dialect}

/-! ### A reading in front of more text -/

/-- The characters that can stand behind what a production reads as if the text ended there. -/
def Part.closes : Part → Char → Bool
  | regex, c => c == ')'
  | _, c => endsTerm c

theorem endsTerm_of_closes {part : Part} {c : Char} (h : part.closes c = true) :
    endsTerm c = true := by
  cases part with
  | regex =>
    obtain rfl : c = ')' := by simpa [Part.closes] using h
    rfl
  | _ => exact h

/-- The text goes on with a character that the production does not look behind. -/
def Part.Closes (part : Part) (rest : List Char) : Prop := ∃ c ∈ rest.head?, part.closes c = true

/-- A production that stops at the end of a text stops before what closes it. -/
theorem Part.Closes.stops_append {part : Part} {p : Char → Bool} {t rest : List Char}
    (hr : t = [] → part.Closes rest) (hp : ∀ c, endsTerm c = true → p c = true) (h : Stops p t) :
    Stops p (t ++ rest) := by
  cases t with
  | nil =>
    obtain ⟨c, hc, hcl⟩ := hr rfl
    intro d hd
    obtain rfl : c = d := Option.some.inj (hc.symm.trans hd)
    exact hp c (endsTerm_of_closes hcl)
  | cons d t => exact h

/-- What is read in front of the end is read in front of what closes the production. -/
theorem Reads.append {part : Part} {s t rest : List Char} {p : Pattern} (h : Reads g part s p t)
    (hr : t = [] → part.Closes rest) : Reads g part (s ++ rest) p (t ++ rest) := by
  induction h with
  | @single s t p _ ht ih =>
    refine .single (ih fun h => ?_) ?_
    · obtain ⟨c, hc, hcl⟩ := hr h
      exact ⟨c, hc, endsTerm_of_closes hcl⟩
    · cases t with
      | nil =>
        obtain ⟨c, hc, hcl⟩ := hr rfl
        intro hbar
        obtain rfl : c = '|' := Option.some.inj (hc.symm.trans hbar)
        cases hcl
      | cons d t => exact ht
  | union _ hp' _ hq' ih ih' => exact .union (ih nofun) hp' (ih' hr) hq'
  | stop hs => exact .stop (Part.Closes.stops_append hr (fun _ hc => hc) hs)
  | gap hg hb ha ha' hp ih ih' =>
    refine .gap hg hb (ih fun h => hr ?_) ha' (ih' hr)
    exact List.suffix_nil.mp (h ▸ hp.suffix)
  | @charClass body mark s t u repeated before after p hg hb hm ha hp ih ih' =>
    have hu : s = [] → u = [] := fun h => List.suffix_nil.mp (h ▸ hp.suffix.trans ha.suffix)
    have hmark : ClassMark mark repeated (s ++ rest) := by
      cases hm with
      | plus => exact .plus _
      | star => exact .star _
      | none hs =>
        refine .none (Part.Closes.stops_append (fun h => hr (hu h)) (fun c hc => ?_) hs)
        rcases eq_of_endsTerm hc with rfl | rfl <;> rfl
    have hclass := Reads.charClass hg hb hmark
      (ih fun h => hr (List.suffix_nil.mp (h ▸ hp.suffix))) (ih' hr)
    simpa using hclass
  | @join c s t u before q p hc hg hb hq ht hp ih ih' =>
    refine .join hc hg hb (ih fun h => hr (List.suffix_nil.mp (h ▸ hp.suffix))) ?_ (ih' hr)
    exact fun h => ht (List.append_cancel_right h)
  | bare _ ht ih =>
    refine .bare (ih hr) (Part.Closes.stops_append hr (fun c hc => ?_) ht)
    rcases eq_of_endsTerm hc with rfl | rfl <;> rfl
  | @repeated s mark t p times _ hp' hm ih =>
    obtain ⟨ch, u, rfl, -⟩ := hm.exists_cons
    have hbase := ih nofun
    rw [List.append_assoc] at hbase
    exact .repeated hbase hp' hm
  | group _ ih => exact .group (ih nofun)
  | @run xs t hs hx ht =>
    rw [List.append_assoc]
    refine .run ?_ hx (Part.Closes.stops_append hr (fun c hc => ?_) ht)
    · cases htext : Literal.run g xs ++ t with
      | nil =>
        obtain ⟨hxs, ht'⟩ := List.append_eq_nil_iff.mp htext
        obtain ⟨c, hc', hcl⟩ := hr ht'
        rw [hxs, ht', List.nil_append, List.nil_append, Option.mem_def.mp hc']
        rcases eq_of_endsTerm (endsTerm_of_closes hcl) with rfl | rfl <;> simp
      | cons d u =>
        rw [← List.append_assoc, htext]
        rw [htext] at hs
        exact hs
    · rcases eq_of_endsTerm hc with rfl | rfl <;> simp [Dialect.isReserved_iff, operators]

/-! ### Texts without an escape at their end -/

/-- Each escape of the text has a character behind it. -/
def Whole (g : Dialect) (s : List Char) : Prop :=
  ∃ xs : List Literal, s = Literal.run g xs ∧ ∀ x ∈ xs, x.Readable g fun _ => false

theorem whole_run {stop : Char → Bool} {xs : List Literal} (h : ∀ x ∈ xs, x.Readable g stop) :
    Whole g (Literal.run g xs) := by
  refine ⟨xs, rfl, fun x hx => ?_⟩
  have := h x hx
  unfold Literal.Readable at this ⊢
  split
  · rfl
  · simp_all

theorem Whole.append {s t : List Char} (hs : Whole g s) (ht : Whole g t) : Whole g (s ++ t) := by
  obtain ⟨xs, rfl, hx⟩ := hs
  obtain ⟨ys, rfl, hy⟩ := ht
  exact ⟨xs ++ ys, List.flatMap_append.symm, List.forall_mem_append.mpr ⟨hx, hy⟩⟩

theorem whole_bare {s : List Char} (h : ∀ c ∈ s, c ≠ g.escape) : Whole g s := by
  refine ⟨s.map fun c => ⟨c, false⟩, ?_, ?_⟩
  · simp [Literal.run, Literal.text, List.flatMap_map]
  · simpa [Literal.Readable] using h

/-- A whole text is whole again behind its first character, or behind its second one if the first
is the escape. -/
theorem Whole.of_cons {c : Char} {s : List Char} (h : Whole g (c :: s)) :
    if c = g.escape then ∃ d t, s = d :: t ∧ Whole g t else Whole g s := by
  obtain ⟨xs, hs, hx⟩ := h
  cases xs with
  | nil => cases hs
  | cons x xs =>
    obtain ⟨hx, hxs⟩ := List.forall_mem_cons.mp hx
    obtain ⟨ch, escaped⟩ := x
    cases escaped with
    | true =>
      obtain ⟨rfl, rfl⟩ := List.cons.inj hs
      rw [if_pos rfl]
      exact ⟨ch, _, rfl, xs, rfl, hxs⟩
    | false =>
      obtain ⟨rfl, rfl⟩ := List.cons.inj hs
      have hne : c ≠ g.escape := by simpa [Literal.Readable] using hx
      rw [if_neg hne]
      exact ⟨xs, rfl, hxs⟩

theorem Whole.cons {c : Char} {s : List Char} (hc : c ≠ g.escape) (h : Whole g s) :
    Whole g (c :: s) :=
  (whole_bare (s := [c]) (by simpa using hc)).append h

theorem isPlain_of_mem_mark {mark : List Char} {times : Repetition} (h : Mark mark times) :
    ∀ c ∈ mark, isPlain c = true := by
  cases h with
  | zeroOrMore => exact List.forall_mem_singleton.mpr rfl
  | oneOrMore => exact List.forall_mem_singleton.mpr rfl
  | between hm hn => exact isPlain_of_mem_bounds hm hn

/-- A production reads no escape that is left alone. -/
theorem Reads.whole {part : Part} {s t : List Char} {p : Pattern}
    (h : Reads .standard part s p t) (ht : Whole .standard t) : Whole .standard s := by
  induction h with
  | single _ _ ih => exact ih ht
  | union _ _ _ _ ih ih' => exact ih ((ih' ht).cons (by decide))
  | stop _ => exact ht
  | gap _ _ _ _ _ ih ih' => exact (ih (ih' ht)).cons (by decide)
  | @charClass body mark s t u repeated before after p _ hb hm _ _ ih ih' =>
    have hmark : Whole .standard mark := by
      cases hm with
      | none => exact whole_bare nofun
      | plus => exact whole_bare (List.forall_mem_singleton.mpr (by decide))
      | star => exact whole_bare (List.forall_mem_singleton.mpr (by decide))
    have hbody : Whole .standard (Literal.run .standard body) := whole_run hb
    refine Whole.cons (by decide) ((hbody.append ?_).append (ih (ih' ht)))
    exact hmark.cons (by decide)
  | join _ _ _ _ _ _ ih ih' => exact ih (ih' ht)
  | bare _ _ ih => exact ih ht
  | repeated _ _ hm ih =>
    refine ih (Whole.append (whole_bare fun c hc => ?_) ht)
    exact (isPlain_iff.mp (isPlain_of_mem_mark hm c hc)).1
  | group _ ih => exact (ih (ht.cons (by decide))).cons (by decide)
  | run _ hx _ => exact (whole_run hx).append ht

theorem Whole.dangling_notMem_split (hg : g.gap.2 ≠ g.escape) {s : List Char} (h : Whole g s) :
    Piece.dangling ∉ split g s := by
  fun_induction split g s with
  | case1 => exact List.not_mem_nil
  | case2 =>
    have := h.of_cons
    simp at this
  | case3 => simp
  | case4 d rest ih =>
    have hrest := h.of_cons
    rw [if_pos rfl] at hrest
    obtain ⟨d', t, ht, hw⟩ := hrest
    obtain ⟨rfl, rfl⟩ := List.cons.inj ht
    simpa using ih hw
  | case5 c d rest hc hgap ih =>
    have hrest := h.of_cons
    rw [if_neg hc] at hrest
    have hrest := hrest.of_cons
    rw [if_neg (hgap.2 ▸ hg)] at hrest
    simpa using ih hrest
  | case6 c d rest hc hgap ih =>
    have hrest := h.of_cons
    rw [if_neg hc] at hrest
    simpa using ih hrest

end Parser

open GapRegex.Parser

/-! ### Enclosed texts -/

/-- A text without an escape at its end is cut on its own if a character that is not part of a
gap stands behind it. -/
theorem cuts_before {s : List Char} (hd : Piece.dangling ∉ split .standard s) {c : Char}
    (hc : isPlain c = true) (hstar : c ≠ '*') :
    Cuts (s ++ [c]) (split .standard s ++ [.plain c]) := by
  obtain ⟨hesc, hstop, -⟩ := isPlain_iff.mp hc
  intro rest
  have hseam : (c :: rest).head? ≠ some Dialect.standard.gap.2 := by
    simpa [Dialect.standard] using hstar
  rw [List.append_assoc, List.singleton_append, split_append hd hseam, List.append_assoc]
  exact congrArg _ (cuts_plain hesc hstop rest)

/-- Between two such characters a text without gaps is normal. -/
theorem renders_enclosed {o c : Char} {s : List Char} (ho : isPlain o = true)
    (hc : isPlain c = true) (hstar : c ≠ '*') (hd : Piece.dangling ∉ split .standard s)
    (hg : Piece.gap ∉ split .standard s) : Renders (o :: s ++ [c]) (o :: s ++ [c]) := by
  obtain ⟨hesc, hstop, ho⟩ := isPlain_iff.mp ho
  have hcuts := (cuts_plain hesc hstop).append (cuts_before hd hc hstar)
  refine ⟨_, hcuts, ?_, ?_⟩
  · have hc := (isPlain_iff.mp hc).2.2
    exact (firm_plain ho).surround _ (by simp) (firm_plain hc) (by simp)
  · simp [write_split hg, Piece.text]

/-- What is read of a class body. -/
theorem readable_body {body : List Char} (hb : Piece.plain ']' ∉ split .standard body) :
    ∀ x ∈ literals .standard (split .standard body), x.Readable .standard (· == ']') := by
  intro x hx
  obtain ⟨p, hp, hpx⟩ := List.mem_filterMap.mp hx
  cases p with
  | pair c =>
    cases hpx
    rfl
  | dangling => cases hpx
  | gap =>
    cases hpx
    exact ⟨rfl, by decide⟩
  | plain c =>
    cases hpx
    have hne : c ≠ ']' := by
      rintro rfl
      exact hb hp
    have hesc := ne_escape_of_plain_mem hp
    simpa [Literal.Readable] using ⟨hne, hesc⟩

namespace Pattern

/-! ### Expressions as parts -/

/-- A normal text with a pattern, as what is put around it needs it. -/
structure Component (e : List Char) (t : Pattern) : Prop where
  reads : Reads .standard .regex e t []
  ne_blank : t ≠ .blank
  no_dangling : Piece.dangling ∉ split .standard e
  no_gap : Piece.gap ∉ split .standard e
  firm : Firm (split .standard e)

theorem component {e : List Char} {t : Pattern} (hn : normalize .standard e = .ok e)
    (h : parse e = .ok t) : Component e t := by
  obtain ⟨text, htext, hr, hb⟩ := parseWith_iff.mp h
  obtain rfl : e = text := Except.ok.inj (hn.symm.trans htext)
  obtain ⟨hgap, -, hfirm⟩ := pieces_of_normal (by decide) hn
  have hwhole : Whole .standard e := hr.whole ⟨[], rfl, nofun⟩
  exact ⟨hr, hb, hwhole.dangling_notMem_split (by decide), hgap, hfirm⟩

/-- A text that is cut on its own is parsed with the text behind it. -/
theorem parse_append {a a' s : List Char} {p : Pattern} (ha : Renders a a') (ha' : a' ≠ [])
    (hf : Firm (split .standard s)) (hg : Piece.gap ∉ split .standard s)
    (hr : Reads .standard .regex (a' ++ s) p []) (hp : p ≠ blank) : parse (a ++ s) = .ok p := by
  have hn := ha.normalize_append hf (by simp [ha'])
  rw [write_split hg] at hn
  exact parseWith_iff.mpr ⟨_, hn, hr, hp⟩

theorem parse_of_renders {a a' : List Char} {p : Pattern} (ha : Renders a a') (ha' : a' ≠ [])
    (hr : Reads .standard (.term .blank) a' p []) (hp : p ≠ blank) : parse a = .ok p := by
  have hregex : Reads .standard .regex (a' ++ []) p [] := by
    rw [List.append_nil]
    exact .single hr (by simp)
  have := parse_append (s := []) ha ha' (by simp [Firm, split]) (by simp [split]) hregex hp
  rwa [List.append_nil] at this

namespace Component

variable {e rest u : List Char} {t before q : Pattern}

theorem renders (h : Component e t) : Renders (parenthesized e) (parenthesized e) :=
  renders_enclosed rfl rfl (by decide) h.no_dangling h.no_gap

theorem closed (h : Component e t) :
    Reads .standard .regex (e ++ ')' :: rest) t (')' :: rest) :=
  h.reads.append fun _ => ⟨')', rfl, rfl⟩

theorem base (h : Component e t) : Reads .standard .base (parenthesized e ++ rest) t rest :=
  reads_parenthesized h.closed

theorem factor (h : Component e t) (hr : Stops (fun c => !startsRepetition c) rest) :
    Reads .standard .factor (parenthesized e ++ rest) t rest :=
  reads_group h.closed hr

/-- Between parentheses, the text is the next item of a term. -/
theorem join (h : Component e t) (hr : Stops (fun c => !startsRepetition c) rest)
    (hq : Reads .standard (.term (before.append t)) rest q u) :
    Reads .standard (.term before) (parenthesized e ++ rest) q u :=
  reads_join rfl (h.factor hr) hq

/-- Between parentheses, the text is the first item of a term. -/
theorem start (h : Component e t) (hr : Stops (fun c => !startsRepetition c) rest)
    (hq : Reads .standard (.term t) rest q u) :
    Reads .standard (.term .blank) (parenthesized e ++ rest) q u := by
  refine h.join hr ?_
  rwa [blank_append]

/-- The text alone is a term unless a bar divides it. -/
theorem term (h : Component e t) (hu : ∀ p q, t ≠ union p q) :
    Reads .standard (.term .blank) e t [] := by
  cases h.reads with
  | single hp _ => exact hp
  | union => exact absurd rfl (hu _ _)

end Component

section Compose

variable {e₁ e₂ : List Char} {t₁ t₂ : Pattern}

theorem parse_parenthesized (h : Component e₁ t₁) : parse (parenthesized e₁) = .ok t₁ := by
  have hterm : Reads .standard (.term .blank) (parenthesized e₁ ++ []) t₁ [] :=
    h.start (stops_nil _) (.stop (stops_nil _))
  rw [List.append_nil] at hterm
  exact parse_of_renders h.renders (parenthesized_ne_nil e₁) hterm h.ne_blank

theorem parse_adjacent (h₁ : Component e₁ t₁) (h₂ : Component e₂ t₂) :
    parse (parenthesized e₁ ++ parenthesized e₂) = .ok (t₁.append t₂) := by
  have hright : Reads .standard (.term t₁) (parenthesized e₂ ++ []) (t₁.append t₂) [] :=
    h₂.join (stops_nil _) (.stop (stops_nil _))
  rw [List.append_nil] at hright
  exact parse_of_renders (h₁.renders.append h₂.renders) (by simp [parenthesized])
    (h₁.start (stops_cons.mpr rfl) hright) fun h => h₁.ne_blank (append_eq_blank.mp h).1

/-- A text that is read as a term before a bar is the left alternative. -/
theorem parse_union {a : List Char} (ha : Renders (a ++ ['|']) (a ++ ['|']))
    (hl : Reads .standard (.term .blank) (a ++ '|' :: e₂) t₁ ('|' :: e₂)) (hb : t₁ ≠ blank)
    (h₂ : Component e₂ t₂) : parse (a ++ '|' :: e₂) = .ok (union t₁ t₂) := by
  have hr := Reads.union hl hb h₂.reads h₂.ne_blank
  rw [List.append_cons] at hr ⊢
  exact parse_append ha (by simp) h₂.firm h₂.no_gap hr nofun

theorem parse_parenthesized_bar (h₁ : Component e₁ t₁) (h₂ : Component e₂ t₂) :
    parse (parenthesized e₁ ++ '|' :: e₂) = .ok (union t₁ t₂) :=
  parse_union (h₁.renders.append (.plain rfl))
    (h₁.start (stops_cons.mpr rfl) (.stop (stops_cons.mpr rfl))) h₁.ne_blank h₂

theorem parse_bar (h₁ : Component e₁ t₁) (h₂ : Component e₂ t₂) (hu : ∀ p q, t₁ ≠ union p q) :
    parse (e₁ ++ '|' :: e₂) = .ok (union t₁ t₂) := by
  have hcuts := cuts_before h₁.no_dangling (c := '|') rfl (by decide)
  have hrenders : Renders (e₁ ++ ['|']) (e₁ ++ ['|']) :=
    ⟨_, hcuts, h₁.firm.append (firm_plain (by decide)), by simp [write_split h₁.no_gap, Piece.text]⟩
  have hleft : Reads .standard (.term .blank) (e₁ ++ '|' :: e₂) t₁ ('|' :: e₂) :=
    (h₁.term hu).append fun _ => ⟨'|', rfl, rfl⟩
  exact parse_union hrenders hleft h₁.ne_blank h₂

theorem parse_gap (h₁ : Component e₁ t₁) (h₂ : Component e₂ t₂) :
    parse (parenthesized e₁ ++ ['.', '*'] ++ parenthesized e₂) = .ok (gap t₁ t₂) := by
  have hrenders := h₁.renders.surround (parenthesized_ne_nil e₁) cuts_gap h₂.renders
    (parenthesized_ne_nil e₂)
  have hafter : Reads .standard .factor (parenthesized e₂ ++ []) t₂ [] := h₂.factor (stops_nil _)
  rw [List.append_nil] at hafter
  have hgap : Reads .standard (.term t₁) ('@' :: parenthesized e₂) (gap t₁ t₂) [] :=
    .gap rfl h₁.ne_blank hafter h₂.ne_blank (.stop (stops_nil _))
  rw [List.append_assoc]
  exact parse_of_renders hrenders (by simp [parenthesized]) (h₁.start (stops_cons.mpr rfl) hgap)
    nofun

theorem parse_repeated (h : Component e₁ t₁) {mark : List Char} {times : Repetition}
    (hm : Mark mark times) : parse (parenthesized e₁ ++ mark) = .ok (repetition t₁ times) := by
  have hrenders := h.renders.append (.plains (isPlain_of_mem_mark hm))
  have hfactor : Reads .standard .factor (parenthesized e₁ ++ mark ++ []) (repetition t₁ times)
      [] := by
    rw [List.append_assoc]
    exact .repeated h.base h.ne_blank hm
  have hterm : Reads .standard (.term .blank) (parenthesized e₁ ++ mark ++ [])
      (repetition t₁ times) [] := reads_join rfl hfactor (.stop (stops_nil _))
  rw [List.append_nil] at hterm
  exact parse_of_renders hrenders (by simp [parenthesized]) hterm nofun

theorem parse_class (h₁ : Component e₁ t₁) (h₂ : Component e₂ t₂) {body mark : List Char}
    (hb : Piece.plain ']' ∉ split .standard body) (hd : Piece.dangling ∉ split .standard body)
    (hg : Piece.gap ∉ split .standard body) (hm : mark ∈ [[], ['+'], ['*']]) :
    parse (parenthesized e₁ ++ '[' :: body ++ ']' :: mark ++ parenthesized e₂) =
      .ok (charClass t₁ t₂ (.ofClass (literals .standard (split .standard body)))
        !mark.isEmpty) := by
  have hmark : (∀ c ∈ mark, isPlain c = true) ∧
      ClassMark mark (!mark.isEmpty) (parenthesized e₂ ++ []) := by
    have hm : mark = [] ∨ mark = ['+'] ∨ mark = ['*'] := by simpa using hm
    rcases hm with rfl | rfl | rfl
    · exact ⟨nofun, .none (stops_cons.mpr rfl)⟩
    · exact ⟨List.forall_mem_singleton.mpr rfl, .plus _⟩
    · exact ⟨List.forall_mem_singleton.mpr rfl, .star _⟩
  have hclass : Renders ('[' :: body ++ [']']) ('[' :: body ++ [']']) :=
    renders_enclosed rfl rfl (by decide) hd hg
  have hrenders := ((h₁.renders.append hclass).append (.plains hmark.1)).append h₂.renders
  have hafter : Reads .standard .factor (parenthesized e₂ ++ []) t₂ [] := h₂.factor (stops_nil _)
  have hitem := Reads.charClass (by decide) (readable_body hb) hmark.2 hafter
    (.stop (p := .charClass t₁ t₂ (.ofClass _) _) (stops_nil _))
  rw [run_literals hd, write_split hg, List.append_nil] at hitem
  have hterm := h₁.start (stops_cons.mpr rfl) hitem
  simp only [List.append_assoc, List.cons_append, List.nil_append] at hrenders hterm ⊢
  exact parse_of_renders hrenders (by simp [parenthesized]) hterm nofun

/-- Two expressions that are normal and have patterns, side by side, as alternatives, around a
gap, repeated, and around a class. -/
theorem parse_compose (hn₁ : normalize .standard e₁ = .ok e₁) (h₁ : parse e₁ = .ok t₁)
    (hn₂ : normalize .standard e₂ = .ok e₂) (h₂ : parse e₂ = .ok t₂) :
    parse (parenthesized e₁) = .ok t₁ ∧
      parse (parenthesized e₁ ++ parenthesized e₂) = .ok (t₁.append t₂) ∧
      parse (parenthesized e₁ ++ '|' :: e₂) = .ok (union t₁ t₂) ∧
      ((∀ p q, t₁ ≠ union p q) → parse (e₁ ++ '|' :: e₂) = .ok (union t₁ t₂)) ∧
      parse (parenthesized e₁ ++ ['.', '*'] ++ parenthesized e₂) = .ok (gap t₁ t₂) ∧
      (∀ mark times, Mark mark times →
        parse (parenthesized e₁ ++ mark) = .ok (repetition t₁ times)) ∧
      ∀ body, Piece.plain ']' ∉ split .standard body → Piece.dangling ∉ split .standard body →
        Piece.gap ∉ split .standard body → ∀ mark ∈ [[], ['+'], ['*']],
          parse (parenthesized e₁ ++ '[' :: body ++ ']' :: mark ++ parenthesized e₂) =
            .ok (charClass t₁ t₂ (.ofClass (literals .standard (split .standard body)))
              !mark.isEmpty) := by
  have c₁ := component hn₁ h₁
  have c₂ := component hn₂ h₂
  refine ⟨parse_parenthesized c₁, parse_adjacent c₁ c₂, parse_parenthesized_bar c₁ c₂,
    parse_bar c₁ c₂, parse_gap c₁ c₂, ?_, ?_⟩
  · exact fun _ _ => parse_repeated c₁
  · exact fun _ hb hd hg _ => parse_class c₁ c₂ hb hd hg

/-- A class with a sentinel in it and a full stop at the end, before a class that holds an escaped
bracket, and as an alternative to alternatives. -/
theorem parse_compose_stop :
    normalize .standard ['[', 'a', '@', ']', 'b', '.'] = .ok ['[', 'a', '@', ']', 'b', '.'] ∧
      parse ['[', 'a', '@', ']', 'b', '.'] =
        .ok (charClass blank (literal ['b', '.']) (.ofList ['@', 'a']) false) ∧
      normalize .standard ['c', '\\', '@', '|', 'd'] = .ok ['c', '\\', '@', '|', 'd'] ∧
      parse ['c', '\\', '@', '|', 'd'] = .ok (union (literal ['c', '@']) (literal ['d'])) ∧
      Mark ['{', '2', ',', '1', '3', '}'] (.between 2 13) ∧
      Piece.plain ']' ∉ split .standard ['\\', ']', '.', '@'] ∧
      parse ['[', 'a', '@', ']', 'b', '.', '|', 'c', '\\', '@', '|', 'd'] =
        .ok (union (charClass blank (literal ['b', '.']) (.ofList ['@', 'a']) false)
          (union (literal ['c', '@']) (literal ['d']))) ∧
      parse ['(', '[', 'a', '@', ']', 'b', '.', ')', '{', '2', ',', '1', '3', '}'] =
        .ok (repetition (charClass blank (literal ['b', '.']) (.ofList ['@', 'a']) false)
          (.between 2 13)) ∧
      parse ['(', '[', 'a', '@', ']', 'b', '.', ')', '[', '\\', ']', '.', '@', ']', '+', '(', 'c',
          '\\', '@', '|', 'd', ')'] =
        .ok (charClass (charClass blank (literal ['b', '.']) (.ofList ['@', 'a']) false)
          (union (literal ['c', '@']) (literal ['d']))
          (.ofClass [⟨']', true⟩, ⟨'.', false⟩, ⟨'@', false⟩]) true) := by
  have hn₁ : normalize .standard ['[', 'a', '@', ']', 'b', '.'] =
      .ok ['[', 'a', '@', ']', 'b', '.'] := by decide +kernel
  have h₁ : parse ['[', 'a', '@', ']', 'b', '.'] =
      .ok (charClass blank (literal ['b', '.']) (.ofList ['@', 'a']) false) := by decide +kernel
  have hn₂ : normalize .standard ['c', '\\', '@', '|', 'd'] = .ok ['c', '\\', '@', '|', 'd'] := by
    decide +kernel
  have h₂ : parse ['c', '\\', '@', '|', 'd'] =
      .ok (union (literal ['c', '@']) (literal ['d'])) := by decide +kernel
  have hm : Mark ['{', '2', ',', '1', '3', '}'] (.between 2 13) :=
    .between (isNumber_toDigits 2) (isNumber_toDigits 13) (by decide) (by decide)
  have hb : Piece.plain ']' ∉ split .standard ['\\', ']', '.', '@'] := by decide
  obtain ⟨-, -, -, hbar, -, hrepeated, hclass⟩ := parse_compose hn₁ h₁ hn₂ h₂
  exact ⟨hn₁, h₁, hn₂, h₂, hm, hb, hbar nofun, hrepeated _ _ hm,
    hclass _ hb (by decide) (by decide) ['+'] (by decide)⟩

end Compose

end Pattern

end GapRegex
