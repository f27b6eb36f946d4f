import Mathlib.Data.List.Basic
import VariantScript.Syntax.Lexeme

/-!
# Regular expressions

What a regular expression matches at a place of a text.  Where it can match in several ways, they are
tried in an order: the first alternative before the second one, more repetitions before fewer ones
or, if that is asked for, fewer before more.  The match is what is passed over in the first of these
ways, and a part of an expression is matched in another way only if what follows it fails.
-/

namespace VariantScript.Syntax

/-- A place in a text: the characters behind it, the last one first, and those ahead of it. -/
structure Place where
  behind : List Char
  ahead : List Char
deriving DecidableEq, Repr

/-- Regular expressions over characters. -/
inductive Regex where
  /-- One character of a class. -/
  | one (p : Char → Bool)
  /-- Nothing at all. -/
  | nothing
  /-- Nothing, at a place that is not right behind a certain character. -/
  | notBehind (c : Char)
  | both (e f : Regex)
  /-- The first expression, or else the second one. -/
  | either (e f : Regex)
  /-- The expression any number of times, as often as possible. -/
  | many (e : Regex)
  /-- The expression any number of times, as rarely as possible. -/
  | few (e : Regex)

namespace Regex

/-- Where a step leads that is taken any number of times, but for a bound, with more steps before
fewer ones or the other way round. -/
def repeated (step : Place → List Place) (greedy : Bool) : Nat → Place → List Place
  | 0, z => [z]
  | n + 1, z =>
      let further := (step z).flatMap (repeated step greedy n)
      if greedy then further ++ [z] else z :: further

/-- The places among some that are further on than a place. -/
def beyond (z : Place) (ys : List Place) : List Place :=
  ys.filter fun y => y.ahead.length < z.ahead.length

/-- The places up to which an expression matches, in the order in which they are tried.  What is
repeated has to take a character each time, so the characters ahead bound how often. -/
def ends : Regex → Place → List Place
  | one p, z =>
      match z.ahead with
      | c :: rest => if p c then [⟨c :: z.behind, rest⟩] else []
      | [] => []
  | nothing, z => [z]
  | notBehind c, z => if z.behind.head? = some c then [] else [z]
  | both e f, z => (e.ends z).flatMap fun y => f.ends y
  | either e f, z => e.ends z ++ f.ends z
  | many e, z => repeated (fun y => beyond y (e.ends y)) true z.ahead.length z
  | few e, z => repeated (fun y => beyond y (e.ends y)) false z.ahead.length z

/-- What an expression matches at the head of a text. -/
def match? (e : Regex) (cs : List Char) : Option (List Char) :=
  (e.ends ⟨[], cs⟩).head?.map fun z => z.behind.reverse

/-- The expression, or else nothing. -/
def optional (e : Regex) : Regex :=
  either e nothing

/-- The expression at least once, as often as possible. -/
def atLeastOne (e : Regex) : Regex :=
  both e (many e)

/-- One certain character. -/
def char (c : Char) : Regex :=
  one (· = c)

/-- Certain characters one after the other. -/
def chars : List Char → Regex
  | [] => nothing
  | c :: cs => both (char c) (chars cs)

/-- The first of some words that is there. -/
def firstOf : List (List Char) → Regex
  | [] => one fun _ => false
  | word :: words => either (chars word) (firstOf words)

end Regex

/-! ## Going ahead -/

/-- The place some characters further on. -/
def Place.advance (n : Nat) (z : Place) : Place :=
  ⟨(z.ahead.take n).reverse ++ z.behind, z.ahead.drop n⟩

namespace Place

variable {z : Place} {c : Char} {cs : List Char}

@[simp] theorem advance_zero (z : Place) : z.advance 0 = z := rfl

@[simp] theorem ahead_advance (n : Nat) (z : Place) : (z.advance n).ahead = z.ahead.drop n := rfl

theorem advance_succ (h : z.ahead = c :: cs) (n : Nat) :
    z.advance (n + 1) = (Place.mk (c :: z.behind) cs).advance n := by
  simp [advance, h]

theorem advance_advance (m n : Nat) (z : Place) :
    (z.advance m).advance n = z.advance (m + n) := by
  simp [advance, List.take_add, List.drop_drop]

/-- The text up to a place further on. -/
theorem reverse_behind_advance (n : Nat) (cs : List Char) :
    ((Place.mk [] cs).advance n).behind.reverse = cs.take n := by
  simp [advance]

end Place

namespace Regex

/-! ## Going on behind a match

What comes out if something follows an expression: the first of the ways to match the expression
behind which it succeeds.
-/

variable {α : Type}

/-- The first success behind the matches of an expression. -/
def followed (e : Regex) (k : Place → Option α) (z : Place) : Option α :=
  (e.ends z).findSome? k

theorem findSome?_flatMap {β γ : Type} (f : β → List γ) (k : γ → Option α) (xs : List β) :
    (xs.flatMap f).findSome? k = xs.findSome? fun x => (f x).findSome? k := by
  induction xs with
  | nil => rfl
  | cons x xs ih =>
      rw [List.flatMap_cons, List.findSome?_append, List.findSome?_cons, ih]
      cases (f x).findSome? k <;> rfl

/-- What an expression matches ends at the first of its ends. -/
theorem match?_eq (e : Regex) (cs : List Char) :
    e.match? cs = (e.followed some ⟨[], cs⟩).map fun z => z.behind.reverse := by
  unfold match? followed
  cases e.ends ⟨[], cs⟩ <;> rfl

section

variable {k : Place → Option α} {z : Place} {c : Char} {cs : List Char} {e f : Regex}
  {p : Char → Bool}

theorem followed_one_cons (h : z.ahead = c :: cs) :
    (one p).followed k z = if p c then k (z.advance 1) else none := by
  have hnext : z.advance 1 = ⟨c :: z.behind, cs⟩ := Place.advance_succ h 0
  unfold followed
  rw [ends, h, hnext]
  dsimp only
  split
  · rw [List.findSome?_cons]
    cases k ⟨c :: z.behind, cs⟩ <;> rfl
  · rfl

theorem followed_one_nil (h : z.ahead = []) : (one p).followed k z = none := by
  unfold followed
  rw [ends, h]
  rfl

@[simp] theorem followed_nothing : nothing.followed k z = k z := by
  unfold followed
  rw [ends, List.findSome?_cons]
  cases k z <;> rfl

theorem followed_notBehind :
    (notBehind c).followed k z = if z.behind.head? = some c then none else k z := by
  unfold followed
  rw [ends]
  split
  · rfl
  · rw [List.findSome?_cons]
    cases k z <;> rfl

@[simp] theorem followed_both : (both e f).followed k z = e.followed (f.followed k) z := by
  unfold followed
  rw [ends, findSome?_flatMap]

@[simp] theorem followed_either :
    (either e f).followed k z = (e.followed k z).or (f.followed k z) := by
  unfold followed
  rw [ends, List.findSome?_append]

@[simp] theorem followed_optional : (optional e).followed k z = (e.followed k z).or (k z) := by
  rw [optional, followed_either, followed_nothing]

theorem followed_char_cons (h : z.ahead = c :: cs) {d : Char} :
    (char d).followed k z = if c = d then k (z.advance 1) else none := by
  rw [char, followed_one_cons h]
  simp

theorem followed_char_nil (h : z.ahead = []) {d : Char} : (char d).followed k z = none :=
  followed_one_nil h

/-- Certain characters have to stand ahead. -/
theorem followed_chars (word : List Char) (k : Place → Option α) (z : Place) :
    (chars word).followed k z =
      if word.isPrefixOf z.ahead then k (z.advance word.length) else none := by
  induction word generalizing z with
  | nil => simp [chars]
  | cons d word ih =>
      rw [chars, followed_both]
      cases h : z.ahead with
      | nil => rw [followed_char_nil h]; rfl
      | cons c cs =>
          have hrest : (z.advance 1).ahead = cs := by rw [Place.ahead_advance, h]; rfl
          rw [followed_char_cons h, ih, hrest, Place.advance_advance, List.isPrefixOf_cons_cons,
            List.length_cons, Nat.add_comm 1]
          by_cases hcd : c = d
          · simp [hcd]
          · simp [hcd, Ne.symm hcd]

/-- The first word that stands ahead is taken, and others if what follows fails. -/
theorem followed_firstOf (words : List (List Char)) (k : Place → Option α) (z : Place) :
    (firstOf words).followed k z =
      (words.filter (·.isPrefixOf z.ahead)).findSome? fun word => k (z.advance word.length) := by
  induction words with
  | nil =>
      rw [firstOf]
      cases h : z.ahead with
      | nil => exact followed_one_nil h
      | cons c cs => rw [followed_one_cons h]; rfl
  | cons word words ih =>
      rw [firstOf, followed_either, ih, followed_chars]
      by_cases hword : word.isPrefixOf z.ahead = true
      · rw [if_pos hword, List.filter_cons, if_pos hword, List.findSome?_cons]
        cases k (z.advance word.length) <;> rfl
      · rw [if_neg hword, List.filter_cons, if_neg hword, Option.none_or]

end

/-! ## Repetitions -/

/-- An expression that takes a character at least. -/
def Takes (e : Regex) : Prop :=
  ∀ z, ∀ y ∈ e.ends z, y.ahead.length < z.ahead.length

theorem takes_one {p : Char → Bool} : (one p).Takes := by
  intro z y hy
  rw [ends] at hy
  split at hy
  · rename_i c rest hahead
    split at hy
    · rw [List.mem_singleton.1 hy, hahead]
      exact Nat.lt_succ_self _
    · cases hy
  · cases hy

theorem Takes.either {e f : Regex} (he : e.Takes) (hf : f.Takes) : (either e f).Takes := by
  intro z y hy
  rw [ends] at hy
  exact (List.mem_append.1 hy).elim (he z y) (hf z y)

/-- An expression that takes a character at least can be repeated from each of its ends. -/
theorem Takes.beyond_ends {e : Regex} (he : e.Takes) (z : Place) : beyond z (e.ends z) = e.ends z :=
  List.filter_eq_self.2 fun y hy => decide_eq_true (he z y hy)

theorem mem_beyond {y z : Place} {ys : List Place} (h : y ∈ beyond z ys) :
    y ∈ ys ∧ y.ahead.length < z.ahead.length :=
  (List.mem_filter.1 h).imp_right of_decide_eq_true

theorem beyond_nil {z : Place} (hz : z.ahead.length ≤ 0) (ys : List Place) : beyond z ys = [] :=
  List.eq_nil_iff_forall_not_mem.2 fun y hy => by
    have := (mem_beyond hy).2
    omega

/-- More repetitions than characters ahead are none more. -/
theorem repeated_enough (next : Place → List Place) (greedy : Bool) {n m : Nat} {z : Place}
    (hn : z.ahead.length ≤ n) (hm : z.ahead.length ≤ m) :
    repeated (fun y => beyond y (next y)) greedy n z =
      repeated (fun y => beyond y (next y)) greedy m z := by
  induction n generalizing m z with
  | zero =>
      cases m with
      | zero => rfl
      | succ m =>
          rw [repeated, repeated, beyond_nil hn]
          cases greedy <;> rfl
  | succ n ih =>
      cases m with
      | zero =>
          rw [repeated, repeated, beyond_nil hm]
          cases greedy <;> rfl
      | succ m =>
          have hmore : (beyond z (next z)).flatMap
                (repeated (fun y => beyond y (next y)) greedy n) =
              (beyond z (next z)).flatMap (repeated (fun y => beyond y (next y)) greedy m) := by
            refine List.flatMap_congr fun y hy => ?_
            have := (mem_beyond hy).2
            exact ih (by omega) (by omega)
          rw [repeated, repeated, hmore]

section

variable {e : Regex} {k : Place → Option α} {z : Place}

/-- What one more repetition leads to. -/
theorem flatMap_repeated (he : e.Takes) (greedy : Bool) {n : Nat} (hn : z.ahead.length ≤ n + 1) :
    (beyond z (e.ends z)).flatMap (repeated (fun y => beyond y (e.ends y)) greedy n) =
      (e.ends z).flatMap fun y =>
        repeated (fun y => beyond y (e.ends y)) greedy y.ahead.length y := by
  rw [he.beyond_ends]
  refine List.flatMap_congr fun y hy => ?_
  have := he z y hy
  exact repeated_enough e.ends greedy (by omega) (Nat.le_refl _)

/-- One more repetition is tried first by an expression that takes as much as possible. -/
theorem followed_many (he : e.Takes) :
    (many e).followed k z = (e.followed ((many e).followed k) z).or (k z) := by
  have hends : (many e).ends z = ((e.ends z).flatMap fun y => (many e).ends y) ++ [z] := by
    simp only [ends]
    rw [repeated_enough e.ends true (Nat.le_refl _) (Nat.le_succ _), repeated,
      flatMap_repeated he true (Nat.le_succ _)]
    rfl
  unfold followed
  rw [hends, List.findSome?_append, findSome?_flatMap, List.findSome?_cons]
  cases k z <;> rfl

/-- One more repetition is tried last by an expression that takes as little as possible. -/
theorem followed_few (he : e.Takes) :
    (few e).followed k z = (k z).or (e.followed ((few e).followed k) z) := by
  have hends : (few e).ends z = z :: (e.ends z).flatMap fun y => (few e).ends y := by
    simp only [ends]
    rw [repeated_enough e.ends false (Nat.le_refl _) (Nat.le_succ _), repeated,
      flatMap_repeated he false (Nat.le_succ _)]
    rfl
  unfold followed
  rw [hends, List.findSome?_cons, findSome?_flatMap]
  cases k z <;> rfl

end

/-! ## Runs of characters -/

section

variable {p : Char → Bool} {c : Char} {cs : List Char}

/-- How far the characters ahead belong to a class. -/
def run (p : Char → Bool) (cs : List Char) : Nat :=
  (cs.takeWhile p).length

theorem run_cons_of_pos (h : p c = true) : run p (c :: cs) = run p cs + 1 := by
  rw [run, List.takeWhile_cons_of_pos h, List.length_cons, run]

theorem run_cons_of_neg (h : ¬ p c = true) : run p (c :: cs) = 0 := by
  rw [run, List.takeWhile_cons_of_neg h, List.length_nil]

theorem drop_run (p : Char → Bool) (cs : List Char) : cs.drop (run p cs) = cs.dropWhile p := by
  induction cs with
  | nil => rfl
  | cons c cs ih =>
      by_cases h : p c = true
      · rw [run_cons_of_pos h, List.drop_succ_cons, ih, List.dropWhile_cons_of_pos h]
      · rw [run_cons_of_neg h, List.drop_zero, List.dropWhile_cons_of_neg h]

variable {k : Place → Option α} {z : Place}

/-- As many characters of a class as possible are taken if what follows succeeds behind them, or if
it fails wherever there are more of them. -/
theorem followed_many_one
    (h : (k (z.advance (run p z.ahead))).isSome ∨
      ∀ m < run p z.ahead, k (z.advance m) = none) :
    (many (one p)).followed k z = k (z.advance (run p z.ahead)) := by
  obtain ⟨behind, ahead⟩ := z
  dsimp only at h ⊢
  induction ahead generalizing behind with
  | nil =>
      rw [followed_many takes_one, followed_one_nil rfl]
      rfl
  | cons c cs ih =>
      rw [followed_many takes_one, followed_one_cons rfl]
      by_cases hc : p c = true
      · have hnext (n : Nat) : (Place.mk behind (c :: cs)).advance (n + 1) =
            (Place.mk (c :: behind) cs).advance n := Place.advance_succ rfl n
        have hfirst : (Place.mk behind (c :: cs)).advance 1 = ⟨c :: behind, cs⟩ := hnext 0
        rw [if_pos hc, hfirst]
        rw [run_cons_of_pos hc, hnext] at h ⊢
        rcases h with hgood | hbad
        · rw [ih _ (.inl hgood)]
          obtain ⟨x, hx⟩ := Option.isSome_iff_exists.1 hgood
          rw [hx]
          rfl
        · have hmore (m : Nat) (hm : m < run p cs) :
              k ((Place.mk (c :: behind) cs).advance m) = none := by
            rw [← hnext]
            exact hbad (m + 1) (by omega)
          have hhere : k ⟨behind, c :: cs⟩ = none := hbad 0 (by omega)
          rw [ih _ (.inr hmore), hhere, Option.or_none]
      · rw [run_cons_of_neg hc, if_neg hc, Option.none_or]
        rfl

/-- At least one character of a class, and as many as possible. -/
theorem followed_atLeastOne
    (h : (k (z.advance (run p z.ahead))).isSome ∨
      ∀ m < run p z.ahead, k (z.advance m) = none) :
    (atLeastOne (one p)).followed k z =
      if run p z.ahead = 0 then none else k (z.advance (run p z.ahead)) := by
  rw [atLeastOne, followed_both]
  cases hahead : z.ahead with
  | nil => rw [followed_one_nil hahead]; rfl
  | cons c cs =>
      rw [hahead] at h
      rw [followed_one_cons hahead]
      by_cases hc : p c = true
      · have hrest : (z.advance 1).ahead = cs := by rw [Place.ahead_advance, hahead]; rfl
        rw [run_cons_of_pos hc] at h ⊢
        rw [if_pos hc, if_neg (Nat.succ_ne_zero _), followed_many_one, hrest,
          Place.advance_advance, Nat.add_comm]
        rw [hrest, Place.advance_advance, Nat.add_comm]
        refine h.imp_right fun hbad m hm => ?_
        rw [Place.advance_advance, Nat.add_comm]
        exact hbad (m + 1) (by omega)
      · rw [if_neg hc, if_pos (run_cons_of_neg hc)]

end

end Regex

end VariantScript.Syntax
