import VariantScript.Proofs.Lexing.Terminals
import VariantScript.Proofs.Reading.Source

/-!
# What follows a match

An expression looks at nothing behind its ends, so what it matches within a text does not depend on
what follows the text.  And an expression that knows a character in none of its classes never passes
it: then the same is matched in front of the character as at the end of the text.
-/

namespace VariantScript.Syntax

/-- The place with more text behind what is ahead. -/
def Place.followedBy (r : List Char) (z : Place) : Place :=
  ⟨z.behind, z.ahead ++ r⟩

/-- Whether a place lies in front of some last text. -/
def Place.inFrontOf (r : List Char) (z : Place) : Bool :=
  r.length ≤ z.ahead.length

/-- Whether a last character and some text are still ahead of a place. -/
def Place.Before (b : Char) (r : List Char) (z : Place) : Prop :=
  ∃ cs, z.ahead = cs ++ b :: r

theorem Place.inFrontOf_followedBy (r : List Char) (z : Place) :
    (z.followedBy r).inFrontOf r = true := by
  simp [followedBy, inFrontOf]

namespace Regex

/-! ## No end lies further back -/

/-- Repetitions end at once or behind one of the first steps. -/
theorem mem_repeated_succ {step : Place → List Place} {greedy : Bool} {n : Nat} {y z : Place}
    (h : y ∈ repeated step greedy (n + 1) z) :
    y = z ∨ ∃ x ∈ step z, y ∈ repeated step greedy n x := by
  rw [repeated] at h
  cases greedy with
  | true => simpa [or_comm] using h
  | false => simpa using h

theorem ahead_le_of_mem_repeated {next : Place → List Place} {greedy : Bool} {n : Nat}
    {y z : Place} (h : y ∈ repeated (fun y => beyond y (next y)) greedy n z) :
    y.ahead.length ≤ z.ahead.length := by
  induction n generalizing z with
  | zero => exact List.mem_singleton.1 h ▸ Nat.le_refl _
  | succ n ih =>
      rcases mem_repeated_succ h with rfl | ⟨x, hx, hy⟩
      · exact Nat.le_refl _
      · exact Nat.le_trans (ih hy) (Nat.le_of_lt (mem_beyond hx).2)

theorem ahead_le_of_mem_ends {e : Regex} {y z : Place} (h : y ∈ e.ends z) :
    y.ahead.length ≤ z.ahead.length := by
  induction e generalizing y z with
  | one p =>
      rw [ends] at h
      split at h
      · rename_i c rest hahead
        split at h
        · rw [List.mem_singleton.1 h, hahead]
          exact Nat.le_succ _
        · cases h
      · cases h
  | nothing =>
      rw [ends] at h
      exact List.mem_singleton.1 h ▸ Nat.le_refl _
  | notBehind c =>
      rw [ends] at h
      split at h
      · cases h
      · exact List.mem_singleton.1 h ▸ Nat.le_refl _
  | both e f ihe ihf =>
      rw [ends] at h
      obtain ⟨x, hx, hy⟩ := List.mem_flatMap.1 h
      exact Nat.le_trans (ihf hy) (ihe hx)
  | either e f ihe ihf =>
      rw [ends] at h
      exact (List.mem_append.1 h).elim ihe ihf
  | many e ih | few e ih =>
      rw [ends] at h
      exact ahead_le_of_mem_repeated h

/-! ## Ends within a text -/

section

variable {f : Place → List Place} {r : List Char}

/-- If nothing lies in front of a text any more behind places that do not, then only those that do
lead to further ones. -/
theorem flatMap_inFrontOf (hf : ∀ z, ∀ y ∈ f z, y.ahead.length ≤ z.ahead.length)
    (zs : List Place) :
    (zs.flatMap f).filter (Place.inFrontOf r) =
      (zs.filter (Place.inFrontOf r)).flatMap fun z => (f z).filter (Place.inFrontOf r) := by
  induction zs with
  | nil => rfl
  | cons z zs ih =>
      rw [List.flatMap_cons, List.filter_append, ih, List.filter_cons]
      cases hz : z.inFrontOf r with
      | true => rfl
      | false =>
          have hnone : (f z).filter (Place.inFrontOf r) = [] := by
            rw [List.filter_eq_nil_iff]
            intro y hy
            have := hf z y hy
            simp only [Place.inFrontOf, decide_eq_false_iff_not, decide_eq_true_eq] at hz ⊢
            omega
          rw [hnone]
          rfl

/-- Going on from the ends within a text leads to the ends within it. -/
theorem map_flatMap_followedBy {g : Place → List Place}
    (hg : ∀ z, ∀ y ∈ g z, y.ahead.length ≤ z.ahead.length)
    (hsame : ∀ z, (g z).map (Place.followedBy r) =
      (g (z.followedBy r)).filter (Place.inFrontOf r))
    {zs zs' : List Place} (hzs : zs.map (Place.followedBy r) = zs'.filter (Place.inFrontOf r)) :
    (zs.flatMap g).map (Place.followedBy r) = (zs'.flatMap g).filter (Place.inFrontOf r) := by
  rw [flatMap_inFrontOf hg, ← hzs, List.flatMap_map, List.map_flatMap]
  exact List.flatMap_congr fun z _ => hsame z

theorem map_beyond_followedBy {next : Place → List Place}
    (hnext : ∀ z, (next z).map (Place.followedBy r) =
      (next (z.followedBy r)).filter (Place.inFrontOf r)) (z : Place) :
    (beyond z (next z)).map (Place.followedBy r) =
      (beyond (z.followedBy r) (next (z.followedBy r))).filter (Place.inFrontOf r) := by
  have hlength (y : Place) : (decide ((y.followedBy r).ahead.length <
      (z.followedBy r).ahead.length)) = decide (y.ahead.length < z.ahead.length) := by
    simp [Place.followedBy]
  unfold beyond
  rw [List.filter_filter, List.filter_congr fun y _ => Bool.and_comm _ _, ← List.filter_filter,
    ← hnext, List.filter_map]
  exact congrArg (List.map _) (List.filter_congr fun y _ => (hlength y).symm)

theorem map_repeated_followedBy {next : Place → List Place} (greedy : Bool)
    (hnext : ∀ z, (next z).map (Place.followedBy r) =
      (next (z.followedBy r)).filter (Place.inFrontOf r)) (n : Nat) (z : Place) :
    (repeated (fun y => beyond y (next y)) greedy n z).map (Place.followedBy r) =
      (repeated (fun y => beyond y (next y)) greedy n (z.followedBy r)).filter
        (Place.inFrontOf r) := by
  induction n generalizing z with
  | zero => simp [repeated, z.inFrontOf_followedBy r]
  | succ n ih =>
      have hmore := map_flatMap_followedBy (fun _ _ => ahead_le_of_mem_repeated) ih
        (map_beyond_followedBy hnext z)
      rw [repeated, repeated]
      cases greedy with
      | true =>
          simp only [if_true, List.map_append, List.filter_append, hmore]
          simp [z.inFrontOf_followedBy r]
      | false => simp [hmore, z.inFrontOf_followedBy r]

theorem map_ends_one (p : Char → Bool) (r : List Char) (z : Place) :
    ((one p).ends z).map (Place.followedBy r) =
      ((one p).ends (z.followedBy r)).filter (Place.inFrontOf r) := by
  obtain ⟨behind, ahead⟩ := z
  cases ahead with
  | nil =>
      -- A character behind the text is not in front of what follows it.
      cases r with
      | nil => rfl
      | cons c r => by_cases hc : p c = true <;> simp [ends, Place.followedBy, Place.inFrontOf, hc]
  | cons c cs =>
      by_cases hc : p c = true <;> simp [ends, Place.followedBy, Place.inFrontOf, hc]

/-- The ends of an expression within a text are those that it has if more follows the text. -/
theorem map_ends_followedBy (e : Regex) (r : List Char) (z : Place) :
    (e.ends z).map (Place.followedBy r) = (e.ends (z.followedBy r)).filter (Place.inFrontOf r) := by
  induction e generalizing z with
  | one p => exact map_ends_one p r z
  | nothing => simp [ends, z.inFrontOf_followedBy r]
  | notBehind c =>
      rw [ends, ends]
      by_cases hc : z.behind.head? = some c
      · rw [if_pos hc, if_pos (by exact hc)]
        rfl
      · rw [if_neg hc, if_neg (by exact hc)]
        simp [z.inFrontOf_followedBy r]
  | both e f ihe ihf =>
      rw [ends, ends]
      exact map_flatMap_followedBy (fun _ _ => ahead_le_of_mem_ends) ihf (ihe z)
  | either e f ihe ihf =>
      rw [ends, ends, List.map_append, List.filter_append, ihe, ihf]
  | many e ih =>
      have hrepeated := map_repeated_followedBy true ih (z.followedBy r).ahead.length z
      rw [ends, ends, ← hrepeated]
      exact congrArg _ (repeated_enough e.ends true (Nat.le_refl _) (by simp [Place.followedBy]))
  | few e ih =>
      have hrepeated := map_repeated_followedBy false ih (z.followedBy r).ahead.length z
      rw [ends, ends, ← hrepeated]
      exact congrArg _ (repeated_enough e.ends false (Nat.le_refl _) (by simp [Place.followedBy]))

end

/-! ## Characters that are never passed -/

/-- Whether no class of an expression has a character. -/
def avoids (b : Char) : Regex → Bool
  | one p => ! p b
  | nothing | notBehind _ => true
  | both e f | either e f => e.avoids b && f.avoids b
  | many e | few e => e.avoids b

variable {b : Char} {r : List Char}

theorem before_of_mem_repeated {next : Place → List Place}
    (hnext : ∀ z y, y ∈ next z → z.Before b r → y.Before b r) {greedy : Bool} {n : Nat}
    {y z : Place} (h : y ∈ repeated (fun y => beyond y (next y)) greedy n z)
    (hz : z.Before b r) : y.Before b r := by
  induction n generalizing z with
  | zero => exact List.mem_singleton.1 h ▸ hz
  | succ n ih =>
      rcases mem_repeated_succ h with rfl | ⟨x, hx, hy⟩
      · exact hz
      · exact ih hy (hnext z x (mem_beyond hx).1 hz)

/-- An expression does not pass a character that it avoids. -/
theorem before_of_mem_ends {e : Regex} (he : e.avoids b = true) {y z : Place} (h : y ∈ e.ends z)
    (hz : z.Before b r) : y.Before b r := by
  induction e generalizing y z with
  | one p =>
      obtain ⟨cs, hcs⟩ := hz
      rw [ends, hcs] at h
      cases cs with
      | nil =>
          dsimp only [List.nil_append] at h
          rw [if_neg (by simpa [avoids] using he)] at h
          cases h
      | cons c cs =>
          dsimp only [List.cons_append] at h
          split at h
          · exact List.mem_singleton.1 h ▸ ⟨cs, rfl⟩
          · cases h
  | nothing =>
      rw [ends] at h
      exact List.mem_singleton.1 h ▸ hz
  | notBehind c =>
      rw [ends] at h
      split at h
      · cases h
      · exact List.mem_singleton.1 h ▸ hz
  | both e f ihe ihf =>
      rw [ends] at h
      obtain ⟨x, hx, hy⟩ := List.mem_flatMap.1 h
      obtain ⟨hfirst, hsecond⟩ := Bool.and_eq_true_iff.1 he
      exact ihf hsecond hy (ihe hfirst hx hz)
  | either e f ihe ihf =>
      rw [ends] at h
      obtain ⟨hfirst, hsecond⟩ := Bool.and_eq_true_iff.1 he
      exact (List.mem_append.1 h).elim (fun h => ihe hfirst h hz) (fun h => ihf hsecond h hz)
  | many e ih | few e ih =>
      rw [ends] at h
      exact before_of_mem_repeated (fun z y hy hz => ih he hy hz) h hz

/-- In front of a character that it avoids, an expression has the ends that it has at the end of the
text. -/
theorem ends_followedBy_of_avoids {e : Regex} (he : e.avoids b = true) (z : Place) :
    e.ends (z.followedBy (b :: r)) = (e.ends z).map (Place.followedBy (b :: r)) := by
  rw [map_ends_followedBy, List.filter_eq_self.2]
  intro y hy
  obtain ⟨cs, hcs⟩ := before_of_mem_ends he hy ⟨z.ahead, rfl⟩
  simp [Place.inFrontOf, hcs]

end Regex

/-! ## Lengths of matches -/

namespace Terminal

variable {t : Terminal} {xs r : List Char} {b : Char}

theorem head?_ends_regex (t : Terminal) (cs : List Char) :
    (t.regex.ends ⟨[], cs⟩).head? = (Place.mk [] cs).advance? (t.matchLength cs) := by
  rw [← t.followed_regex ⟨[], cs⟩]
  unfold Regex.followed
  cases t.regex.ends ⟨[], cs⟩ <;> rfl

/-- The length of a match is what the first of the ends has behind it. -/
theorem matchLength_eq (t : Terminal) (cs : List Char) :
    t.matchLength cs = ((t.regex.ends ⟨[], cs⟩).head?.map (·.behind.length)).getD 0 := by
  rw [head?_ends_regex, Place.advance?]
  split
  · rename_i hzero
    exact hzero
  · have hle := t.matchLength_le cs
    simp [Place.advance, hle]

/-- What a terminal matches within a text it matches there whatever follows. -/
theorem matchLength_of_le (h : t.matchLength (xs ++ r) ≤ xs.length) :
    t.matchLength xs = t.matchLength (xs ++ r) := by
  have hends := t.regex.map_ends_followedBy r ⟨[], xs⟩
  have hhead := t.head?_ends_regex (xs ++ r)
  have hfirst : ((t.regex.ends ⟨[], xs ++ r⟩).filter (Place.inFrontOf r)).head? =
      (t.regex.ends ⟨[], xs ++ r⟩).head? := by
    cases hall : t.regex.ends ⟨[], xs ++ r⟩ with
    | nil => rfl
    | cons y ys =>
        rw [hall, List.head?_cons, Place.advance?] at hhead
        split at hhead
        · cases hhead
        · have hy : y.inFrontOf r = true := by
            rw [Option.some.inj hhead, Place.inFrontOf, Place.ahead_advance, List.length_drop,
              List.length_append, decide_eq_true_eq]
            omega
          rw [List.filter_cons_of_pos hy]
          rfl
  rw [matchLength_eq, matchLength_eq, ← hfirst]
  unfold Place.followedBy at hends
  rw [← hends, List.head?_map, Option.map_map]
  rfl

/-- A terminal that avoids a character matches in front of it what it matches at the end. -/
theorem matchLength_of_avoids (h : t.regex.avoids b = true) (xs r : List Char) :
    t.matchLength (xs ++ b :: r) = t.matchLength xs := by
  have hends := Regex.ends_followedBy_of_avoids (r := r) h ⟨[], xs⟩
  rw [matchLength_eq, matchLength_eq]
  unfold Place.followedBy at hends
  rw [hends, List.head?_map, Option.map_map]
  rfl

end Terminal

end VariantScript.Syntax
