import GapRegex.CharSet.Basic

/-!
# Members — what a set contains, operation by operation

Each operation on a set is described by what the result contains.  The main statement is `ext`:
two sets with the same members are the same set, so the runs of a set do not tell how it was made.
-/

namespace GapRegex

/-- Characters are in the order of their code points. -/
theorem toNat_lt_toNat {a b : Char} : a.toNat < b.toNat ↔ a < b := Iff.rfl

/-! ### Runs -/

namespace Run

theorem contains_iff {r : Run} {c : Char} :
    r.contains c = true ↔ r.first ≤ c.toNat ∧ c.toNat ≤ r.last := by
  simp [contains]

/-- Every code point of a valid run is that of a character. -/
theorem Valid.toNat_ofNat {r : Run} (h : r.Valid) {n : Nat} (h₁ : r.first ≤ n)
    (h₂ : n ≤ r.last) : (Char.ofNat n).toNat = n := by
  have hn : n.isValidChar := by
    simp only [Valid, Nat.isValidChar] at *
    omega
  rw [Char.ofNat, dif_pos hn]
  rfl

theorem contains_ofChar {a c : Char} : (ofChar a).contains c = true ↔ a = c := by
  rw [contains_iff]
  constructor
  · intro h
    exact Char.toNat_inj.mp (by simp only [ofChar] at h; omega)
  · rintro rfl
    exact ⟨Nat.le_refl _, Nat.le_refl _⟩

/-- Two runs that touch have nothing between them. -/
theorem contains_hull {r s : Run} (_ : r.Valid) (_ : s.Valid) (h₁ : ¬ r.last + 1 < s.first)
    (h₂ : ¬ s.last + 1 < r.first) {c : Char} :
    (r.hull s).contains c = true ↔ r.contains c = true ∨ s.contains c = true := by
  simp only [contains_iff, hull, Valid] at *
  omega

theorem any_insertInto {r : Run} {rs : List Run} (hr : r.Valid) (hrs : ∀ s ∈ rs, s.Valid)
    {c : Char} :
    (insertInto r rs).any (·.contains c) = true ↔
      r.contains c = true ∨ rs.any (·.contains c) = true := by
  induction rs generalizing r with
  | nil => simp [insertInto]
  | cons s rest ih =>
    obtain ⟨hs, hrest⟩ := List.forall_mem_cons.mp hrs
    unfold insertInto
    split
    · simp
    · split
      · simp only [List.any_cons, Bool.or_eq_true, ih hr hrest]
        exact or_left_comm
      · rw [ih (hr.hull hs ‹_› ‹_›) hrest, contains_hull hr hs ‹_› ‹_›, List.any_cons,
          Bool.or_eq_true, or_assoc]

theorem mem_toList {r : Run} (h : r.Valid) {c : Char} :
    c ∈ r.toList ↔ r.contains c = true := by
  rw [contains_iff, toList, List.mem_map]
  constructor
  · rintro ⟨n, hn, rfl⟩
    simp only [List.mem_range'_1, size] at hn
    rw [h.toNat_ofNat hn.1 (by omega)]
    omega
  · intro hc
    refine ⟨c.toNat, ?_, Char.ofNat_toNat c⟩
    simp only [List.mem_range'_1, size]
    omega

theorem length_toList (r : Run) : r.toList.length = r.size := by
  simp [toList]

theorem toList_pairwise {r : Run} (h : r.Valid) : r.toList.Pairwise (· < ·) := by
  rw [toList, List.pairwise_map]
  refine List.Pairwise.imp_of_mem ?_ List.pairwise_lt_range'
  intro m n hm hn hlt
  simp only [List.mem_range'_1, size] at hm hn
  rw [← toNat_lt_toNat, h.toNat_ofNat hm.1 (by omega), h.toNat_ofNat hn.1 (by omega)]
  exact hlt

end Run

/-! ### Sets -/

namespace CharSet

theorem contains_iff {s : CharSet} {c : Char} :
    s.contains c = true ↔ ∃ r ∈ s.runs, r.contains c = true := by
  simp [contains]

@[simp] theorem contains_empty (c : Char) : empty.contains c = false := rfl

@[simp] theorem contains_add {s : CharSet} {a c : Char} :
    (s.add a).contains c = true ↔ s.contains c = true ∨ a = c := by
  rw [or_comm, ← Run.contains_ofChar]
  exact Run.any_insertInto (Run.valid_ofChar a) s.valid

theorem contains_addRun {s : CharSet} {r : Run} (h : r.Valid) {c : Char} :
    (s.addRun r h).contains c = true ↔ r.contains c = true ∨ s.contains c = true :=
  Run.any_insertInto h s.valid

/-- Both ends, and what lies between them in code point order. -/
theorem contains_addRange {s : CharSet} {a b c : Char} :
    (s.addRange a b).contains c = true ↔
      s.contains c = true ∨ a = c ∨ b = c ∨ (a < c ∧ c < b) := by
  have hc := Run.valid_ofChar c
  have ha : a = c ↔ a.toNat = c.toNat := Char.toNat_inj.symm
  have hb : b = c ↔ b.toNat = c.toNat := Char.toNat_inj.symm
  rw [← toNat_lt_toNat, ← toNat_lt_toNat]
  unfold addRange
  split
  · split
    · rw [contains_addRun, Run.contains_iff, ha, hb]
      dsimp only
      by_cases hm : s.contains c = true
      · simp only [hm, or_true, true_or]
      · simp only [hm, Bool.false_eq_true, or_false, false_or]
        omega
    · rw [contains_addRun, contains_addRun, Run.contains_iff, Run.contains_iff, ha, hb]
      simp only [Run.Valid, Run.ofChar] at hc
      dsimp only
      by_cases hm : s.contains c = true
      · simp only [hm, or_true, true_or]
      · simp only [hm, Bool.false_eq_true, or_false, false_or]
        omega
  · rw [contains_add, contains_add]
    have : ¬ (a.toNat < c.toNat ∧ c.toNat < b.toNat) := by omega
    simp only [this, or_false]
    exact or_assoc

theorem contains_foldl_add {cs : List Char} {s : CharSet} {c : Char} :
    (cs.foldl add s).contains c = true ↔ c ∈ cs ∨ s.contains c = true := by
  induction cs generalizing s with
  | nil => simp
  | cons a rest ih =>
    rw [List.foldl_cons, ih, contains_add, List.mem_cons]
    constructor
    · rintro (h | h | h) <;> simp [h]
    · rintro ((h | h) | h) <;> simp [h]

@[simp] theorem contains_ofList {cs : List Char} {c : Char} :
    (ofList cs).contains c = true ↔ c ∈ cs := by
  simp [ofList, contains_foldl_add]

@[simp] theorem mem_toList {s : CharSet} {c : Char} : c ∈ s.toList ↔ s.contains c = true := by
  rw [toList, List.mem_flatMap, contains_iff]
  constructor
  · rintro ⟨r, hr, hc⟩
    exact ⟨r, hr, (Run.mem_toList (s.valid r hr)).mp hc⟩
  · rintro ⟨r, hr, hc⟩
    exact ⟨r, hr, (Run.mem_toList (s.valid r hr)).mpr hc⟩

theorem length_toList (s : CharSet) : s.toList.length = s.size := by
  rw [toList, size]
  induction s.runs with
  | nil => rfl
  | cons r rs ih =>
    rw [List.flatMap_cons, List.length_append, r.length_toList, ih]
    rfl

theorem isEmpty_iff {s : CharSet} : s.isEmpty = true ↔ ∀ c, s.contains c = false := by
  rw [isEmpty, List.isEmpty_iff]
  constructor
  · intro h c
    simp [contains, h]
  · intro h
    cases hr : s.runs with
    | nil => rfl
    | cons r rest =>
      have hv := s.valid r (by simp [hr])
      have hn := hv.toNat_ofNat (Nat.le_refl _) hv.1
      have hc : r.contains (Char.ofNat r.first) = true := by
        rw [Run.contains_iff, hn]
        exact ⟨Nat.le_refl _, hv.1⟩
      have : s.contains (Char.ofNat r.first) = true := contains_iff.mpr ⟨r, by simp [hr], hc⟩
      rw [h] at this
      cases this

/-- The members are listed in strictly ascending order. -/
theorem toList_pairwise (s : CharSet) : s.toList.Pairwise (· < ·) := by
  rw [toList, List.flatMap_def, List.pairwise_flatten]
  constructor
  · intro l hl
    obtain ⟨r, hr, rfl⟩ := List.mem_map.mp hl
    exact Run.toList_pairwise (s.valid r hr)
  · rw [List.pairwise_map]
    refine List.Pairwise.imp_of_mem ?_ s.apart
    intro r t hr ht hrt a ha b hb
    have ha := Run.contains_iff.mp ((Run.mem_toList (s.valid r hr)).mp ha)
    have hb := Run.contains_iff.mp ((Run.mem_toList (s.valid t ht)).mp hb)
    simp only [Run.Before] at hrt
    rw [← toNat_lt_toNat]
    omega

/-! ### One representation -/

/-- Runs at a distance from each other that cover the same code points are the same runs. -/
theorem runs_unique {rs ts : List Run} (hr : ∀ r ∈ rs, r.first ≤ r.last)
    (ht : ∀ t ∈ ts, t.first ≤ t.last) (ar : rs.Pairwise Run.Before) (at' : ts.Pairwise Run.Before)
    (h : ∀ n, (∃ r ∈ rs, r.first ≤ n ∧ n ≤ r.last) ↔ ∃ t ∈ ts, t.first ≤ n ∧ n ≤ t.last) :
    rs = ts := by
  induction rs generalizing ts with
  | nil =>
    cases ts with
    | nil => rfl
    | cons t rest =>
      obtain ⟨r, hr', _⟩ := (h t.first).mpr ⟨t, by simp, Nat.le_refl _, ht t (by simp)⟩
      cases hr'
  | cons r rrest ih =>
    cases ts with
    | nil =>
      obtain ⟨t, ht', _⟩ := (h r.first).mp ⟨r, by simp, Nat.le_refl _, hr r (by simp)⟩
      cases ht'
    | cons t trest =>
      simp only [List.forall_mem_cons] at hr ht
      simp only [List.pairwise_cons, Run.Before] at ar at'
      simp only [List.mem_cons, or_and_right, exists_or, exists_eq_left] at h
      -- nothing of the tails lies at or before the end of the first run, nor right after it
      have far : ∀ n, (∃ r' ∈ rrest, r'.first ≤ n ∧ n ≤ r'.last) → r.last + 1 < n := by
        rintro n ⟨r', hr', hn⟩
        have := ar.1 r' hr'
        omega
      have far' : ∀ n, (∃ t' ∈ trest, t'.first ≤ n ∧ n ≤ t'.last) → t.last + 1 < n := by
        rintro n ⟨t', ht', hn⟩
        have := at'.1 t' ht'
        omega
      have first : r.first = t.first := by
        have h₁ := (h r.first).mp (Or.inl (by omega))
        have h₂ := (h t.first).mpr (Or.inl (by omega))
        rcases h₁ with h₁ | h₁ <;> rcases h₂ with h₂ | h₂
        · omega
        · have := far _ h₂; omega
        · have := far' _ h₁; omega
        · have := far _ h₂; have := far' _ h₁; omega
      have last : r.last = t.last := by
        rcases Nat.lt_trichotomy r.last t.last with hlt | heq | hlt
        · rcases (h (r.last + 1)).mpr (Or.inl (by omega)) with h₁ | h₁
          · omega
          · have := far _ h₁; omega
        · exact heq
        · rcases (h (t.last + 1)).mp (Or.inl (by omega)) with h₁ | h₁
          · omega
          · have := far' _ h₁; omega
      have same : r = t := by
        cases r
        cases t
        simp_all
      subst same
      rw [ih hr.2 ht.2 ar.2 at'.2 fun n => ?_]
      constructor
      · intro hn
        have := far n hn
        rcases (h n).mp (Or.inr hn) with h₁ | h₁
        · omega
        · exact h₁
      · intro hn
        have := far' n hn
        rcases (h n).mpr (Or.inr hn) with h₁ | h₁
        · omega
        · exact h₁

/-- A set is determined by its members. -/
theorem ext {s t : CharSet} (h : ∀ c, s.contains c = t.contains c) : s = t := by
  have cover : ∀ (a b : CharSet), (∀ c, a.contains c = b.contains c) → ∀ n,
      (∃ r ∈ a.runs, r.first ≤ n ∧ n ≤ r.last) → ∃ r ∈ b.runs, r.first ≤ n ∧ n ≤ r.last := by
    rintro a b hab n ⟨r, hr, h₁, h₂⟩
    have hn := (a.valid r hr).toNat_ofNat h₁ h₂
    have ha : a.contains (Char.ofNat n) = true :=
      contains_iff.mpr ⟨r, hr, Run.contains_iff.mpr (by omega)⟩
    obtain ⟨r', hr', hc⟩ := contains_iff.mp (hab _ ▸ ha)
    rw [Run.contains_iff, hn] at hc
    exact ⟨r', hr', hc⟩
  have : s.runs = t.runs :=
    runs_unique (fun r hr => (s.valid r hr).1) (fun r hr => (t.valid r hr).1) s.apart t.apart
      fun n => ⟨cover s t h n, cover t s (fun c => (h c).symm) n⟩
  cases s
  cases t
  simp_all

end CharSet

end GapRegex
