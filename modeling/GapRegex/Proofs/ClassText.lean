import GapRegex.Proofs.Grammar

/-!
# ClassText — the body of a class, written and read

A class body is a list of literals, and its text is what they look like one after the other.  A
literal that a class can hold (`IsMember`) is written so that it does not close the class.  The text
and the body then determine each other, whatever stands behind the class and in whichever dialect.
* `classBody_of_run`: a body is read back from its text;
* `run_of_classBody`: what is read has the text that was consumed for it;
* `classBody_run`: both.
-/

namespace GapRegex.Parser

open Grammar

variable {g : Dialect} {c d : Cursor} {body : List Literal}

/-- The bracket behind the text of a body closes the class, and none in the text does. -/
theorem classBody_of_run (he : g.escape ≠ ']') (hb : ∀ x ∈ body, IsMember g x)
    (ht : Takes c (Literal.run g body) d) (hd : d.peek = some ']') :
    classBody g c = .ok body d := by
  have hread : ∀ x ∈ body, x.Readable g (· == ']') := fun x hx => readable_of_isMember he (hb x hx)
  exact classBody_iff.mpr ⟨ht, hread, hd⟩

/-- This holds in every dialect: where the escape closes the class, no literal of it is escaped. -/
theorem run_of_classBody (h : classBody g c = .ok body d) :
    Takes c (Literal.run g body) d ∧ d.peek = some ']' ∧ ∀ x ∈ body, IsMember g x := by
  obtain ⟨ht, hread, hd⟩ := classBody_iff.mp h
  exact ⟨ht, hd, fun x hx => isMember_of_readable (hread x hx)⟩

/-- Reading the body of a class undoes writing it, up to the bracket that closes the class.  And
writing the body that was read gives the text that was consumed; the bracket is next, and no bare
literal of the body is a closing bracket or the escape. -/
theorem classBody_run (g : Dialect) :
    (g.escape ≠ ']' → ∀ body : List Literal, (∀ x ∈ body, IsMember g x) → ∀ pos rest,
      classBody g ⟨pos, Literal.run g body ++ ']' :: rest⟩ =
        .ok body ⟨pos + (Literal.run g body).length, ']' :: rest⟩) ∧
      ∀ c body d, classBody g c = .ok body d →
        c.rest = Literal.run g body ++ d.rest ∧ d.pos = c.pos + (Literal.run g body).length ∧
          d.peek = some ']' ∧ ∀ x ∈ body, IsMember g x := by
  refine ⟨fun he body hb pos rest => ?_, fun c body d h => ?_⟩
  · exact classBody_of_run he hb ⟨rfl, rfl⟩ rfl
  · obtain ⟨ht, hd, hb⟩ := run_of_classBody h
    exact ⟨ht.1, ht.2, hd, hb⟩

/-- An escaped bracket and an escaped escape, and bare characters that have a role elsewhere. -/
theorem classBody_run_escapes :
    Dialect.standard.escape ≠ ']' ∧
      (∀ x ∈ [⟨']', true⟩, ⟨'\\', true⟩, ⟨'@', false⟩, ⟨'[', false⟩, ⟨'-', false⟩],
        IsMember .standard x) ∧
      classBody .standard ⟨3, ['\\', ']', '\\', '\\', '@', '[', '-', ']', '+', 'a']⟩ =
        .ok [⟨']', true⟩, ⟨'\\', true⟩, ⟨'@', false⟩, ⟨'[', false⟩, ⟨'-', false⟩]
          ⟨10, [']', '+', 'a']⟩ ∧
      Literal.run .standard
          [⟨']', true⟩, ⟨'\\', true⟩, ⟨'@', false⟩, ⟨'[', false⟩, ⟨'-', false⟩] ++
          [']', '+', 'a'] =
        ['\\', ']', '\\', '\\', '@', '[', '-', ']', '+', 'a'] := by
  have he : Dialect.standard.escape ≠ ']' := by decide
  have hb : ∀ x ∈ [⟨']', true⟩, ⟨'\\', true⟩, ⟨'@', false⟩, ⟨'[', false⟩, ⟨'-', false⟩],
      IsMember .standard x := by
    unfold IsMember
    decide
  obtain ⟨hread, hwrite⟩ := classBody_run .standard
  have hbody := hread he _ hb 3 ['+', 'a']
  exact ⟨he, hb, hbody, (hwrite _ _ _ hbody).1.symm⟩

end GapRegex.Parser
