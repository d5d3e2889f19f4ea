import Mathlib.Control.Monad.Basic
import GapRegex.Proofs.Reads

/-!
# TreeSize — how large a tree a text can have

Each character of a text pays three, and each node of a tree costs two.  That is enough, although a
literal behind a repetition costs more than its one character pays, and a class may cost all that
its brackets pay: such a literal cannot follow another one, and it cannot follow a class with
nothing behind it either.
* `Affords`: a term and the text after it are paid for, and something is left over if a literal can
  come next;
* `Affords.gap`, `Affords.charClass`, `Affords.join`: each item of a term keeps this;
* `Reads.pays`: so each production is paid for by the text that it takes;
* `Reads.height_le`: on the way down there are no more nodes than characters.
-/

namespace GapRegex

namespace Pattern

/-! ### Trees without the blank that is dropped again -/

/-- The number of nodes, where a blank pattern on its own has none. -/
def weight : Pattern → Nat
  | blank => 0
  | p => p.size

/-- The number of nodes on the longest way down, where a blank pattern on its own has none. -/
def height : Pattern → Nat
  | blank => 0
  | p => p.depth

section Measures

variable {p : Pattern}

@[simp] theorem weight_blank : blank.weight = 0 := rfl

theorem weight_of_ne (h : p ≠ blank) : p.weight = p.size := by
  cases p with
  | blank => exact absurd rfl h
  | _ => rfl

theorem height_of_ne (h : p ≠ blank) : p.height = p.depth := by
  cases p with
  | blank => exact absurd rfl h
  | _ => rfl

theorem size_le_weight (p : Pattern) : p.size ≤ p.weight + 1 := by
  by_cases h : p = blank
  · subst h
    exact Nat.le_refl 1
  · rw [weight_of_ne h]
    exact Nat.le_succ _

theorem depth_le_height (p : Pattern) : p.depth ≤ p.height + 1 := by
  by_cases h : p = blank
  · subst h
    exact Nat.le_refl 1
  · rw [height_of_ne h]
    exact Nat.le_succ _

theorem depth_pos (p : Pattern) : 0 < p.depth := by
  cases p <;> simp [depth]

/-- Concatenation adds one node at most. -/
theorem weight_append_le (p q : Pattern) : (p.append q).weight ≤ p.weight + q.weight + 1 := by
  rcases append_cases p q with ⟨-, h⟩ | ⟨-, h⟩ | ⟨s, t, rfl, rfl, h⟩ | ⟨hp, hq, -, h⟩
  · rw [h]
    omega
  · rw [h]
    omega
  · rw [h]
    exact Nat.le_add_left 1 2
  · rw [h, weight_of_ne hp, weight_of_ne hq]
    exact Nat.le_refl _

/-- Concatenation makes a tree no higher than its parts on top of each other. -/
theorem height_append_le (p q : Pattern) : (p.append q).height ≤ p.height + q.height := by
  rcases append_cases p q with ⟨-, h⟩ | ⟨-, h⟩ | ⟨s, t, rfl, rfl, h⟩ | ⟨hp, hq, -, h⟩
  · rw [h]
    exact Nat.le_add_left _ _
  · rw [h]
    exact Nat.le_add_right _ _
  · rw [h]
    exact Nat.le_add_left 1 1
  · have hp' := depth_pos p
    have hq' := depth_pos q
    have hd : (concat p q).height = max p.depth q.depth + 1 := rfl
    rw [h, height_of_ne hp, height_of_ne hq]
    omega

end Measures

end Pattern

namespace Parser

open Pattern

/-! ### Paying for an item -/

/-- Out of `n`, the term `p` and the text `s` after it are paid for, two for a node and three for a
character.  Something is left over, unless nothing is read yet or no literal comes next. -/
def Affords (g : Dialect) (n : Nat) (p : Pattern) (s : List Char) : Prop :=
  2 * p.weight + 3 * s.length ≤ n ∧
    (p = .blank ∨ Stops g.isReserved s ∨ 2 * p.weight + 3 * s.length < n)

/-- What is known of a factor or a base that is read from `s` up to `t`. -/
structure Paid (g : Dialect) (s : List Char) (p : Pattern) (t : List Char) : Prop where
  le : 2 * p.weight + 3 * t.length ≤ 3 * s.length
  /-- Where there is a node, something is left over. -/
  lt_of_ne : p ≠ .blank → 2 * p.weight + 3 * t.length < 3 * s.length
  /-- Only a run of literals leaves less than two over, and no literal follows it. -/
  stops_or : Stops g.isReserved t ∨ 2 * p.weight + 3 * t.length + 2 ≤ 3 * s.length
  /-- What does not start with a literal is a group, which pays for its parentheses too. -/
  of_stops : Stops g.isReserved s → t.length < s.length →
    2 * p.weight + 3 * t.length + 3 ≤ 3 * s.length

section Items

variable {g : Dialect} {n : Nat} {s t : List Char} {before after q : Pattern}

/-- The brackets of a class are two characters. -/
theorem length_class_le (body mark s : List Char) :
    s.length + 2 ≤ ('[' :: (body ++ ']' :: mark ++ s)).length := by
  simp only [List.length_cons, List.length_append]
  omega

theorem affords_start (g : Dialect) (s : List Char) : Affords g (3 * s.length) .blank s :=
  ⟨by simp, Or.inl rfl⟩

theorem Affords.gap (h : Affords g n before (g.sentinel :: s)) (hb : before ≠ .blank)
    (ha : Paid g s after t) (ha' : after ≠ .blank) : Affords g n (.gap before after) t := by
  have hle := h.1
  have hlt := ha.lt_of_ne ha'
  have hw : (Pattern.gap before after).weight = before.size + after.size + 1 := rfl
  rw [List.length_cons, weight_of_ne hb] at hle
  rw [weight_of_ne ha'] at hlt
  exact ⟨by omega, Or.inr (Or.inr (by omega))⟩

theorem Affords.charClass {body mark : List Char} {members : CharSet} {repeated : Bool}
    (h : Affords g n before ('[' :: (body ++ ']' :: mark ++ s))) (ha : Paid g s after t) :
    Affords g n (.charClass before after members repeated) t := by
  have hle := h.1
  have hw : (Pattern.charClass before after members repeated).weight =
      before.size + after.size + 1 := rfl
  have hlen := length_class_le body mark s
  have hbefore := size_le_weight before
  by_cases ha' : after = .blank
  · subst ha'
    have hsize : Pattern.blank.size = 1 := rfl
    have hafter := ha.le
    have hstops := ha.stops_or
    rw [weight_blank] at hafter hstops
    by_cases hb : before = .blank
    · -- the brackets pay for all three nodes and for nothing else
      subst hb
      rw [weight_blank] at hle hbefore
      rcases hstops with hs | hs
      · exact ⟨by omega, Or.inr (Or.inl hs)⟩
      · exact ⟨by omega, Or.inr (Or.inr (by omega))⟩
    · rw [weight_of_ne hb] at hle
      exact ⟨by omega, Or.inr (Or.inr (by omega))⟩
  · have hlt := ha.lt_of_ne ha'
    rw [weight_of_ne ha'] at hlt
    exact ⟨by omega, Or.inr (Or.inr (by omega))⟩

theorem Affords.join (h : Affords g n before s) (hq : Paid g s q t)
    (hlt : t.length < s.length) : Affords g n (before.append q) t := by
  obtain ⟨hle, hspare⟩ := h
  by_cases hq' : q = .blank
  · subst hq'
    rw [append_blank]
    exact ⟨by omega, Or.inr (Or.inr (by omega))⟩
  have hpaid := hq.lt_of_ne hq'
  by_cases hb : before = .blank
  · subst hb
    rw [blank_append]
    rw [weight_blank] at hle
    exact ⟨by omega, Or.inr (Or.inr (by omega))⟩
  -- the node that joins the two is paid for by what is left over before it, or by a group
  have hw := weight_append_le before q
  rcases hspare.resolve_left hb with hs | hs
  · have hgroup := hq.of_stops hs hlt
    exact ⟨by omega, Or.inr (Or.inr (by omega))⟩
  · rcases hq.stops_or with ht | ht
    · exact ⟨by omega, Or.inr (Or.inl ht)⟩
    · exact ⟨by omega, Or.inr (Or.inr (by omega))⟩

/-- A group leaves over what its parentheses pay. -/
theorem Paid.group {p : Pattern} (h : 2 * p.weight + 3 * (')' :: t).length ≤ 3 * s.length) :
    Paid g ('(' :: s) p t := by
  rw [List.length_cons] at h
  have hle : 2 * p.weight + 3 * t.length + 6 ≤ 3 * ('(' :: s).length := by
    rw [List.length_cons]
    omega
  exact ⟨by omega, fun _ => by omega, Or.inr (by omega), fun _ _ => by omega⟩

/-- A run of literals pays for its one node, and no literal follows it. -/
theorem Paid.run {xs : List Literal} (hx : ∀ x ∈ xs, x.Readable g g.isReserved)
    (ht : Stops g.isReserved t) :
    Paid g (Literal.run g xs ++ t) (.ofText (xs.map Literal.char)) t := by
  cases xs with
  | nil =>
    exact ⟨Nat.le_of_eq (Nat.zero_add _), fun h => absurd rfl h, Or.inl ht,
      fun _ h => absurd h (Nat.lt_irrefl _)⟩
  | cons x xs =>
    obtain ⟨c, u, hu, hc⟩ := (hx x List.mem_cons_self).exists_cons
    have hw : (ofText ((x :: xs).map Literal.char)).weight = 1 := rfl
    have htext : Literal.run g (x :: xs) ++ t = c :: (u ++ Literal.run g xs ++ t) := by
      rw [Literal.run_cons, hu]
      simp
    have hlen : t.length + 1 ≤ (c :: (u ++ Literal.run g xs ++ t)).length := by
      simp only [List.length_cons, List.length_append]
      omega
    rw [htext]
    refine ⟨by omega, fun _ => by omega, Or.inl ht, fun hs => ?_⟩
    exact absurd (stops_cons.mp hs) (Bool.eq_false_iff.mp hc)

/-- The mark of a repetition pays for the node of it. -/
theorem Paid.repeated {p : Pattern} {mark : List Char} {times : Repetition}
    (h : Paid g s p (mark ++ t)) (hp : p ≠ .blank) (hm : Mark mark times) :
    Paid g s (.repetition p times) t := by
  obtain ⟨c, u, rfl, -⟩ := hm.exists_cons
  have hlt := h.lt_of_ne hp
  have hw : (Pattern.repetition p times).weight = p.size + 1 := rfl
  rw [weight_of_ne hp, List.length_append, List.length_cons] at hlt
  refine ⟨by omega, fun _ => by omega, Or.inr (by omega), fun hs hlt' => ?_⟩
  have hstops := h.of_stops hs
  rw [weight_of_ne hp, List.length_append, List.length_cons] at hstops
  have := hstops (by omega)
  omega

end Items

/-! ### Whole readings -/

/-- How a production is paid for. -/
def Part.Pays (g : Dialect) : Part → List Char → Pattern → List Char → Prop
  | regex, s, p, t => 2 * p.weight + 3 * t.length ≤ 3 * s.length
  | term before, s, p, t => ∀ n, Affords g n before s → 2 * p.weight + 3 * t.length ≤ n
  | factor, s, p, t | base, s, p, t => Paid g s p t

theorem Reads.length_lt {g : Dialect} {part : Part} {s t : List Char} {p : Pattern}
    (h : Reads g part s p t) (hne : t ≠ s) : t.length < s.length :=
  Nat.lt_of_le_of_ne h.suffix.length_le (mt h.suffix.eq_of_length hne)

theorem Reads.pays {g : Dialect} {part : Part} {s t : List Char} {p : Pattern}
    (h : Reads g part s p t) : part.Pays g s p t := by
  induction h with
  | @single s t p _ _ ih => exact ih _ (affords_start g s)
  | @union s t u p q _ hp' _ hq' ih ih' =>
    have hleft : 2 * p.weight + 3 * ('|' :: t).length ≤ 3 * s.length := ih _ (affords_start g s)
    have hright : 2 * q.weight + 3 * u.length ≤ 3 * t.length := ih'
    have hw : (Pattern.union p q).weight = p.size + q.size + 1 := rfl
    show 2 * (Pattern.union p q).weight + 3 * u.length ≤ 3 * s.length
    rw [weight_of_ne hp', List.length_cons] at hleft
    rw [weight_of_ne hq'] at hright
    omega
  | stop _ => exact fun n h => h.1
  | gap _ hb _ ha' _ ih ih' => exact fun n h => ih' n (h.gap hb ih ha')
  | charClass _ _ _ _ _ ih ih' => exact fun n h => ih' n (h.charClass ih)
  | join _ _ _ hq ht _ ih ih' => exact fun n h => ih' n (h.join ih (hq.length_lt ht))
  | bare _ _ ih => exact ih
  | repeated _ hp' hm ih => exact Paid.repeated ih hp' hm
  | group _ ih => exact Paid.group ih
  | run _ hx ht => exact Paid.run hx ht

/-- A tree is no higher than the term it goes on with and the text that is read. -/
theorem Reads.height_le {g : Dialect} {part : Part} {s t : List Char} {p : Pattern}
    (h : Reads g part s p t) : p.height + t.length ≤ part.before.height + s.length := by
  induction h with
  | single _ _ ih => exact ih
  | @union s t u p q _ hp' _ hq' ih ih' =>
    have hleft : p.height + ('|' :: t).length ≤ 0 + s.length := ih
    have hright : q.height + u.length ≤ 0 + t.length := ih'
    have hd : (Pattern.union p q).height = max p.depth q.depth + 1 := rfl
    show (Pattern.union p q).height + u.length ≤ 0 + s.length
    rw [height_of_ne hp', List.length_cons] at hleft
    rw [height_of_ne hq'] at hright
    omega
  | stop _ => exact Nat.le_refl _
  | @gap s t u before after p _ hb _ ha' _ ih ih' =>
    have hafter : after.height + t.length ≤ 0 + s.length := ih
    have hrest : p.height + u.length ≤ max before.depth after.depth + 1 + t.length := ih'
    show p.height + u.length ≤ before.height + (s.length + 1)
    rw [height_of_ne ha'] at hafter
    rw [height_of_ne hb]
    omega
  | @charClass body mark s t u repeated before after p _ _ _ _ _ ih ih' =>
    have hafter : after.height + t.length ≤ 0 + s.length := ih
    have hrest : p.height + u.length ≤ max before.depth after.depth + 1 + t.length := ih'
    have hlen := length_class_le (Literal.run g body) mark s
    have hb := depth_le_height before
    have ha := depth_le_height after
    show p.height + u.length ≤ before.height + _
    omega
  | @join c s t u before q p _ _ _ _ _ _ ih ih' =>
    have hq : q.height + t.length ≤ 0 + (c :: s).length := ih
    have hrest : p.height + u.length ≤ (before.append q).height + t.length := ih'
    have hjoin := height_append_le before q
    show p.height + u.length ≤ before.height + (c :: s).length
    omega
  | bare _ _ ih => exact ih
  | @repeated s mark t p times _ hp' hm ih =>
    obtain ⟨c, u, rfl, -⟩ := hm.exists_cons
    have hbase : p.height + (c :: u ++ t).length ≤ 0 + s.length := ih
    show p.depth + 1 + t.length ≤ 0 + s.length
    rw [height_of_ne hp', List.length_append, List.length_cons] at hbase
    omega
  | @group s t p _ ih =>
    have hinner : p.height + (')' :: t).length ≤ 0 + s.length := ih
    show p.height + t.length ≤ 0 + ('(' :: s).length
    rw [List.length_cons] at hinner ⊢
    omega
  | @run xs t _ hx ht =>
    have hpaid := Paid.run hx ht
    show (ofText (xs.map Literal.char)).height + t.length ≤ 0 + (Literal.run g xs ++ t).length
    cases xs with
    | nil => exact Nat.le_refl _
    | cons x xs =>
      have hlt := hpaid.lt_of_ne nofun
      have hd : (ofText ((x :: xs).map Literal.char)).height = 1 := rfl
      omega

/-- Twice the nodes of a tree are no more than three times the characters of its normal text, and
the longest way down has no more nodes than there are characters. -/
theorem size_le_of_parse {g : Dialect} {raw n : List Char} {t : Pattern}
    (hn : NormalForm.normalize g raw = .ok n) (h : Pattern.parseWith g raw = .ok t) :
    2 * t.size ≤ 3 * n.length ∧ t.depth ≤ n.length := by
  obtain ⟨text, htext, hr, hne⟩ := parseWith_iff.mp h
  obtain rfl : n = text := Except.ok.inj (hn.symm.trans htext)
  have hsize : 2 * t.weight + 3 * 0 ≤ 3 * n.length := hr.pays
  have hdepth : t.height + 0 ≤ 0 + n.length := hr.height_le
  rw [weight_of_ne hne] at hsize
  rw [height_of_ne hne] at hdepth
  exact ⟨by omega, by omega⟩

/-- A class without members and neighbours has all the nodes that its text can have. -/
theorem size_le_of_parse_class :
    NormalForm.normalize .standard ['[', ']'] = .ok ['[', ']'] ∧
      Pattern.parseWith .standard ['[', ']'] = .ok (.charClass .blank .blank .empty false) ∧
      2 * (Pattern.charClass .blank .blank .empty false).size ≤ 3 * ['[', ']'].length ∧
      (Pattern.charClass .blank .blank .empty false).depth ≤ ['[', ']'].length := by
  have hn : NormalForm.normalize .standard ['[', ']'] = .ok ['[', ']'] := by decide +kernel
  have h : Pattern.parseWith .standard ['[', ']'] =
      .ok (.charClass .blank .blank .empty false) := by decide +kernel
  exact ⟨hn, h, size_le_of_parse hn h⟩

end Parser

end GapRegex
