import GapRegex.CharSet.Class
import GapRegex.CharSet.Lemmas

/-!
# ClassMembers — the set of a class body, index by index

A class body is read from left to right, and the end of a range is passed over together with its
dash.  The members can be told from the body all the same, by looking at one index at a time.  A
dash spans a range if it is bare and stands between two bare literals, unless the literal in front
of it is such a dash already (`spans`).  It adds what lies strictly between its neighbours; any
other literal adds its own character (`Adds`).
* `spans_append`: behind a literal that spans no range, the body can be taken on its own;
* `contains_addClass`: what is still to be added, when a part of the body is read;
* `contains_ofClass`: the members of a class.
-/

namespace GapRegex.CharSet

variable {body : List Literal} {c : Char}

/-- Whether the literal at an index is a dash that spans a range. -/
def spans (body : List Literal) : Nat → Bool
  | 0 => false
  | i + 1 =>
    match body[i]?, body[i + 1]?, body[i + 2]? with
    | some w, some x, some y => x.isDash && !w.escaped && !y.escaped && !spans body i
    | _, _, _ => false

/-- What the literal at an index adds to the set. -/
def Adds (body : List Literal) (i : Nat) (c : Char) : Prop :=
  if spans body i then
    ∃ w y, body[i - 1]? = some w ∧ body[i + 1]? = some y ∧ w.char < c ∧ c < y.char
  else ∃ x, body[i]? = some x ∧ x.char = c

/-! ### Bodies behind other literals -/

@[simp] theorem spans_zero (body : List Literal) : spans body 0 = false := rfl

theorem spans_one {w x y : Literal} :
    spans (w :: x :: y :: body) 1 = (x.isDash && !w.escaped && !y.escaped) := by
  simp [spans]

/-- A bare dash between two bare literals spans a range, unless the literal before it does. -/
theorem spans_succ_iff {i : Nat} : spans body (i + 1) = true ↔
    ∃ w x y, body[i]? = some w ∧ body[i + 1]? = some x ∧ body[i + 2]? = some y ∧
      x.isDash = true ∧ w.escaped = false ∧ y.escaped = false ∧ spans body i = false := by
  rw [spans]
  constructor
  · intro h
    split at h
    · next w x y hw hx hy => exact ⟨w, x, y, hw, hx, hy, by simpa [and_assoc] using h⟩
    · cases h
  · rintro ⟨w, x, y, hw, hx, hy, h⟩
    rw [hw, hx, hy]
    simpa [and_assoc] using h

theorem not_spans_of_succ {i : Nat} (h : spans body (i + 1) = true) : spans body i = false := by
  obtain ⟨w, x, y, -, -, -, -, -, -, hi⟩ := spans_succ_iff.mp h
  exact hi

/-- Of two literals side by side only one spans a range. -/
theorem spans_succ_eq_false {i : Nat} (h : spans body i = true) : spans body (i + 1) = false :=
  Bool.eq_false_iff.mpr fun h' => absurd h (Bool.eq_false_iff.mp (not_spans_of_succ h'))

/-- The end of a range is the start of the next one if a dash and a bare literal follow. -/
theorem spans_chain {i : Nat} {x y : Literal} (h : spans body (i + 1) = true)
    (hx : body[i + 3]? = some x) (hd : x.isDash = true) (hy : body[i + 4]? = some y)
    (hb : y.escaped = false) : spans body (i + 3) = true := by
  obtain ⟨-, -, v, -, -, hv, -, -, hv', -⟩ := spans_succ_iff.mp h
  exact spans_succ_iff.mpr ⟨v, x, y, hv, hx, hy, hd, hv', hb, spans_succ_eq_false h⟩

theorem getElem?_behind (front body : List Literal) (i : Nat) :
    (front ++ body)[i + front.length]? = body[i]? := by
  rw [List.getElem?_append_right (Nat.le_add_left _ _), Nat.add_sub_cancel]

/-- Where the first literal of the rest spans no range, the rest is read as if it stood alone. -/
theorem spans_append {front : List Literal} (h : spans (front ++ body) front.length = false)
    (i : Nat) : spans (front ++ body) (i + front.length) = spans body i := by
  induction i with
  | zero => rw [Nat.zero_add, h, spans_zero]
  | succ i ih =>
    have h₁ := getElem?_behind front body (i + 1)
    have h₂ := getElem?_behind front body (i + 2)
    rw [Nat.add_right_comm] at h₁ h₂
    rw [Nat.add_right_comm, spans, spans, getElem?_behind, h₁, h₂, ih]

/-! ### What each index adds -/

theorem not_adds_nil : ¬ ∃ i, Adds [] i c := by
  rintro ⟨i, h⟩
  unfold Adds at h
  split at h
  · obtain ⟨w, y, hw, -⟩ := h
    cases hw
  · obtain ⟨x, hx, -⟩ := h
    cases hx

/-- The first literal of a body is a member. -/
theorem adds_zero {x : Literal} : Adds (x :: body) 0 c ↔ x.char = c := by
  simp [Adds]

theorem exists_adds_head {x : Literal} (h : x.char = c) : ∃ i, Adds (x :: body) i c :=
  ⟨0, adds_zero.mpr h⟩

theorem adds_append (front : List Literal) (h : spans (front ++ body) front.length = false)
    (i : Nat) : Adds (front ++ body) (i + front.length) c ↔ Adds body i c := by
  cases i with
  | zero =>
    have hs := spans_append h 0
    have hx := getElem?_behind front body 0
    simp only [Adds, hs, hx, spans_zero, Bool.false_eq_true, if_false]
  | succ i =>
    have hs := spans_append h (i + 1)
    have hw : i + 1 + front.length - 1 = i + front.length := by omega
    have hy : i + 1 + front.length + 1 = i + 2 + front.length := by omega
    simp only [Adds, hs, hw, hy, getElem?_behind, Nat.add_sub_cancel]

/-- A literal in front of one that spans no range adds its own character. -/
theorem exists_adds_cons {x : Literal} (h : spans (x :: body) 1 = false) :
    (∃ i, Adds (x :: body) i c) ↔ x.char = c ∨ ∃ i, Adds body i c := by
  rw [← Nat.or_exists_add_one, adds_zero]
  exact or_congr_right (exists_congr fun i => adds_append [x] h i)

/-- A range in front adds what lies strictly between its ends; the literal at its end comes with
the rest. -/
theorem exists_adds_range {w x y : Literal} (h : spans (w :: x :: y :: body) 1 = true) :
    (∃ i, Adds (w :: x :: y :: body) i c) ↔
      w.char = c ∨ (w.char < c ∧ c < y.char) ∨ ∃ i, Adds (y :: body) i c := by
  have hdash : Adds (w :: x :: y :: body) 1 c ↔ w.char < c ∧ c < y.char := by
    simp [Adds, h]
  have hend : spans ([w, x] ++ y :: body) 2 = false := spans_succ_eq_false h
  rw [← Nat.or_exists_add_one, adds_zero, ← Nat.or_exists_add_one, hdash]
  exact or_congr_right (or_congr_right (exists_congr fun i => adds_append [w, x] hend i))

theorem exists_adds_singleton {x : Literal} : (∃ i, Adds [x] i c) ↔ x.char = c := by
  rw [exists_adds_cons rfl, or_iff_left not_adds_nil]

/-! ### What a body adds -/

theorem contains_add_of_mem {s : CharSet} {x : Literal} :
    ∀ v ∈ some x, v.char = c → (s.add x.char).contains c = true := by
  rintro v hv hc
  obtain rfl : x = v := Option.some.inj hv
  exact contains_add.mpr (Or.inr hc)

/-- While a body is read, the literal before the rest of it is a member already. -/
theorem contains_addClass {s : CharSet} {prev : Option Literal} {rest : List Literal}
    (hprev : ∀ w ∈ prev, w.char = c → s.contains c = true) :
    (s.addClass prev rest).contains c = true ↔
      s.contains c = true ∨ ∃ i, Adds (prev.toList ++ rest) i c := by
  fun_induction addClass s prev rest with
  | case1 s prev =>
    cases prev with
    | none => simp [not_adds_nil]
    | some w =>
      rw [Option.toList_some, List.append_nil, exists_adds_singleton]
      exact (or_iff_left_of_imp (hprev w rfl)).symm
  | case2 s prev x =>
    cases prev with
    | none => rw [contains_add, Option.toList_none, List.nil_append, exists_adds_singleton]
    | some w =>
      have hw := hprev w rfl
      have hspans : spans [w, x] 1 = false := by simp [spans]
      rw [contains_add, Option.toList_some, List.singleton_append, exists_adds_cons hspans,
        exists_adds_singleton]
      grind
  | case3 s x y rest ih =>
    have hhead : x.char = c → ∃ i, Adds (x :: y :: rest) i c := exists_adds_head
    refine (ih contains_add_of_mem).trans ?_
    rw [contains_add, Option.toList_some, List.singleton_append, Option.toList_none,
      List.nil_append]
    grind
  | case4 s w x y rest h ih =>
    have hy : ∀ v ∈ some y, v.char = c → (s.addRange w.char y.char).contains c = true := by
      rintro v hv rfl
      obtain rfl : y = v := Option.some.inj hv
      exact contains_addRange.mpr (Or.inr (Or.inr (Or.inl rfl)))
    have hspans : spans (w :: x :: y :: rest) 1 = true := by rw [spans_one, h]
    have hw := hprev w rfl
    have hhead : y.char = c → ∃ i, Adds (y :: rest) i c := exists_adds_head
    refine (ih hy).trans ?_
    rw [contains_addRange, Option.toList_some, List.singleton_append, Option.toList_some,
      List.singleton_append, exists_adds_range hspans]
    grind
  | case5 s w x y rest h ih =>
    have hspans : spans (w :: x :: y :: rest) 1 = false := by
      rw [spans_one, Bool.eq_false_iff]
      exact h
    have hw := hprev w rfl
    have hhead : x.char = c → ∃ i, Adds (x :: y :: rest) i c := exists_adds_head
    refine (ih contains_add_of_mem).trans ?_
    rw [contains_add, Option.toList_some, List.singleton_append, Option.toList_some,
      List.singleton_append, exists_adds_cons hspans]
    grind

theorem contains_ofClass_iff : (ofClass body).contains c = true ↔ ∃ i, Adds body i c := by
  have hnone : ∀ w ∈ (none : Option Literal), w.char = c → empty.contains c = true := by simp
  rw [ofClass, contains_addClass hnone, contains_empty, Option.toList_none, List.nil_append]
  simp

/-- A literal that spans no range is a member. -/
theorem adds_of_not_spans {i : Nat} {x : Literal} (hx : body[i]? = some x)
    (h : spans body i = false) : Adds body i x.char := by
  rw [Adds, h]
  exact ⟨x, hx, rfl⟩

theorem adds_succ_of_spans {i : Nat} {w y : Literal} (h : spans body (i + 1) = true)
    (hw : body[i]? = some w) (hy : body[i + 2]? = some y) :
    Adds body (i + 1) c ↔ w.char < c ∧ c < y.char := by
  rw [Adds, if_pos h, Nat.add_sub_cancel, hw, hy]
  simp

/-- What an index adds, spelled out for the two kinds of literals. -/
theorem exists_adds_iff : (∃ i, Adds body i c) ↔
    (∃ i x, spans body i = false ∧ body[i]? = some x ∧ x.char = c) ∨
      ∃ i w y, spans body (i + 1) = true ∧ body[i]? = some w ∧ body[i + 2]? = some y ∧
        w.char < c ∧ c < y.char := by
  constructor
  · rintro ⟨i, h⟩
    cases hs : spans body i with
    | false =>
      rw [Adds, hs] at h
      obtain ⟨x, hx, hc⟩ := h
      exact Or.inl ⟨i, x, hs, hx, hc⟩
    | true =>
      cases i with
      | zero => cases hs
      | succ i =>
        obtain ⟨w, -, y, hw, -, hy, -⟩ := spans_succ_iff.mp hs
        exact Or.inr ⟨i, w, y, hs, hw, hy, (adds_succ_of_spans hs hw hy).mp h⟩
  · rintro (⟨i, x, hs, hx, rfl⟩ | ⟨i, w, y, hs, hw, hy, h⟩)
    · exact ⟨i, adds_of_not_spans hx hs⟩
    · exact ⟨i + 1, (adds_succ_of_spans hs hw hy).mpr h⟩

/-- Both ends of a range are members. -/
theorem contains_ends {i : Nat} {w y : Literal} (h : spans body (i + 1) = true)
    (hw : body[i]? = some w) (hy : body[i + 2]? = some y) :
    (ofClass body).contains w.char = true ∧ (ofClass body).contains y.char = true := by
  exact ⟨contains_ofClass_iff.mpr ⟨i, adds_of_not_spans hw (not_spans_of_succ h)⟩,
    contains_ofClass_iff.mpr ⟨i + 2, adds_of_not_spans hy (spans_succ_eq_false h)⟩⟩

/-- The members of a class are the characters of its literals, but for the dashes of ranges, and
what lies strictly between the ends of a range.  No surrogate is among them.  Both ends of a range
are members, and there is nothing else in one that is reversed.  The end of a range can start the
next one. -/
theorem contains_ofClass (body : List Literal) :
    (∀ c, (ofClass body).contains c = true ↔
      (∃ i x, spans body i = false ∧ body[i]? = some x ∧ x.char = c) ∨
        ∃ i w y, spans body (i + 1) = true ∧ body[i]? = some w ∧ body[i + 2]? = some y ∧
          w.char < c ∧ c < y.char) ∧
      (∀ r ∈ (ofClass body).runs, r.last < 0xD800 ∨ 0xDFFF < r.first) ∧
      (∀ i w y, spans body (i + 1) = true → body[i]? = some w → body[i + 2]? = some y →
        (ofClass body).contains w.char = true ∧ (ofClass body).contains y.char = true ∧
          (y.char ≤ w.char → ∀ c, ¬ Adds body (i + 1) c)) ∧
      ∀ i x z, spans body (i + 1) = true → body[i + 3]? = some x → x.isDash = true →
        body[i + 4]? = some z → z.escaped = false → spans body (i + 3) = true := by
  refine ⟨fun c => ?_, fun r hr => ?_, fun i w y hi hw hy => ?_, fun i x z hi hx hd hz hb => ?_⟩
  · rw [contains_ofClass_iff, exists_adds_iff]
  · obtain ⟨-, hr⟩ := (ofClass body).valid r hr
    exact hr.imp_right And.left
  · obtain ⟨hstart, hend⟩ := contains_ends hi hw hy
    refine ⟨hstart, hend, fun hle c hc => ?_⟩
    obtain ⟨h₁, h₂⟩ := (adds_succ_of_spans hi hw hy).mp hc
    exact absurd hle (Char.not_le.mpr (Char.lt_trans h₁ h₂))
  · exact spans_chain hi hx hd hz hb

/-- A reversed range from `c` to `a` whose end starts the range from `a` to `e`. -/
theorem contains_ofClass_chain :
    (ofClass [⟨'c', false⟩, ⟨'-', false⟩, ⟨'a', false⟩, ⟨'-', false⟩, ⟨'e', false⟩]).contains 'b' =
        true ∧
      (ofClass [⟨'c', false⟩, ⟨'-', false⟩, ⟨'a', false⟩, ⟨'-', false⟩,
        ⟨'e', false⟩]).contains '-' = false ∧
      (∀ c, ¬ Adds [⟨'c', false⟩, ⟨'-', false⟩, ⟨'a', false⟩, ⟨'-', false⟩, ⟨'e', false⟩] 1 c) ∧
      spans [⟨'c', false⟩, ⟨'-', false⟩, ⟨'a', false⟩, ⟨'-', false⟩, ⟨'e', false⟩] 3 = true := by
  obtain ⟨hmem, -, hends, hchain⟩ :=
    contains_ofClass [⟨'c', false⟩, ⟨'-', false⟩, ⟨'a', false⟩, ⟨'-', false⟩, ⟨'e', false⟩]
  obtain ⟨-, -, hreversed⟩ := hends 0 ⟨'c', false⟩ ⟨'a', false⟩ rfl rfl rfl
  refine ⟨(hmem 'b').mpr ?_, by decide, hreversed (by decide), ?_⟩
  · exact Or.inr ⟨2, ⟨'a', false⟩, ⟨'e', false⟩, rfl, rfl, rfl, by decide, by decide⟩
  · exact hchain 0 ⟨'-', false⟩ ⟨'e', false⟩ rfl rfl rfl rfl rfl

end GapRegex.CharSet
