import VariantScript.Proofs.Reading.Source

/-!
# Places in order

A place comes before another one if it is on an earlier line, or on the same line in an earlier
column.  The tokens of a text stand one behind the other, so that no two of them have the same place.
-/

namespace VariantScript

namespace Position

/-- A place comes before another one. -/
instance : LT Position :=
  ⟨fun p q => p.line < q.line ∨ p.line = q.line ∧ p.column < q.column⟩

/-- A place does not come behind another one. -/
instance : LE Position :=
  ⟨fun p q => p.line < q.line ∨ p.line = q.line ∧ p.column ≤ q.column⟩

variable {p q r : Position}

theorem lt_iff : p < q ↔ p.line < q.line ∨ p.line = q.line ∧ p.column < q.column := Iff.rfl

theorem le_iff : p ≤ q ↔ p.line < q.line ∨ p.line = q.line ∧ p.column ≤ q.column := Iff.rfl

theorem le_refl (p : Position) : p ≤ p := .inr ⟨rfl, Nat.le_refl _⟩

theorem le_of_lt (h : p < q) : p ≤ q := by
  rw [lt_iff] at h
  rw [le_iff]
  omega

theorem le_trans (h : p ≤ q) (h' : q ≤ r) : p ≤ r := by
  rw [le_iff] at *
  omega

theorem lt_of_lt_of_le (h : p < q) (h' : q ≤ r) : p < r := by
  rw [lt_iff] at *
  rw [le_iff] at h'
  omega

theorem ne_of_lt (h : p < q) : p ≠ q := by
  rintro rfl
  rw [lt_iff] at h
  omega

theorem lt_step (p : Position) (c : Char) : p < p.step c := by
  rw [lt_iff]
  unfold step
  split
  · exact .inl (Nat.lt_succ_self _)
  · exact .inr ⟨rfl, Nat.lt_succ_self _⟩

theorem le_after (p : Position) (text : List Char) : p ≤ p.after text := by
  induction text generalizing p with
  | nil => exact le_refl p
  | cons c cs ih => exact le_trans (le_of_lt (lt_step p c)) (ih (p.step c))

/-- Behind a text that is not empty is a later place. -/
theorem lt_after (p : Position) {text : List Char} (h : text ≠ []) : p < p.after text := by
  obtain ⟨c, cs, rfl⟩ := List.exists_cons_of_ne_nil h
  exact lt_of_lt_of_le (lt_step p c) (le_after (p.step c) cs)

end Position

namespace Syntax

/-- A lexeme is a token where it stands. -/
theorem Lexeme.pos_of_token? {l : Lexeme} {p : Position} {t : Token} (h : l.token? p = some t) :
    t.pos = p := by
  unfold token? at h
  split at h
  · dsimp only at h
    split at h <;> (cases h; rfl)
  · cases h
    rfl
  · cases h

/-- The tokens of lexemes that lie side by side from a place on stand there one behind the other. -/
theorem Lexeme.tokens_inOrder {ls : List Lexeme} (hls : AllTake ls) (p : Position) :
    (∀ t ∈ tokens p ls, p ≤ t.pos) ∧ (tokens p ls).Pairwise fun s t => s.pos < t.pos := by
  induction ls generalizing p with
  | nil => simp [tokens]
  | cons l ls ih =>
      have hlater := Position.lt_after p (hls l (.head _)).1
      obtain ⟨hbehind, horder⟩ := ih (fun l hl => hls l (.tail _ hl)) (p.after l.text)
      rw [tokens]
      cases htoken : l.token? p with
      | none =>
          exact ⟨fun t ht => Position.le_trans (Position.le_of_lt hlater) (hbehind t ht), horder⟩
      | some s =>
          have hs := pos_of_token? htoken
          refine ⟨fun t ht => ?_, List.pairwise_cons.2 ⟨fun t ht => ?_, horder⟩⟩
          · rcases List.mem_cons.1 ht with rfl | ht
            · rw [hs]
              exact Position.le_refl p
            · exact Position.le_trans (Position.le_of_lt hlater) (hbehind t ht)
          · rw [hs]
            exact Position.lt_of_lt_of_le hlater (hbehind t ht)

/-- The tokens of a text stand one behind the other. -/
theorem tokensOf_inOrder (source : List Char) :
    (tokensOf source).1.Pairwise fun s t => s.pos < t.pos :=
  (Lexeme.tokens_inOrder (Lexeme.allTake_ofText source) .start).2

end Syntax

end VariantScript
