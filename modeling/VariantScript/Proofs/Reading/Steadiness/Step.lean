import VariantScript.Proofs.Grammar.Genuine
import VariantScript.Proofs.Reading.Outcome

/-!
# Reading one token ahead

What a reader has read, or where it has failed, does not depend on what stands behind the first
token that it leaves.  Here is what tokens, lists, fields and patterns hand on of it, and when a
choice between two readers does.
-/

namespace VariantScript.Syntax

open Grammar

namespace Outcome

variable {α β : Type}

/-- The tokens that are left, behind a phrase or from a failure on. -/
def left : Outcome α → List Token
  | .ok (_, rest) => rest
  | .error rest => rest

/-- Tokens that are no more than `r`, or that end in `r` and are given with `r'` in its place. -/
inductive Near (r r' : List Token) : List Token → Option (List Token) → Prop where
  | within {ts : List Token} (h : ts.length ≤ r.length) (hts : Genuine ts) : Near r r' ts none
  | before {m : List Token} (hm : m ≠ []) (hts : Genuine (m ++ r)) (hr' : Genuine r') :
      Near r r' (m ++ r) (some (m ++ r'))

/-- An outcome that leaves no more than `r`, or is the same with `r'` in its place. -/
def Steady (r r' : List Token) (o : Outcome α) (other : Option (Outcome α)) : Prop :=
  Genuine o.left ∧
    (o.left.length ≤ r.length ∨ ∃ m, m ≠ [] ∧
      ((∃ x, o = .ok (x, m ++ r) ∧ other = some (.ok (x, m ++ r'))) ∨
        (o = .error (m ++ r) ∧ other = some (.error (m ++ r')))))

/-- A reader whose outcome on some tokens is steady. -/
def SteadyAt (r r' : List Token) (read : List Token → Outcome α) (ts : List Token) : Prop :=
  ∀ other, Near r r' ts other → Steady r r' (read ts) (other.map read)

variable {r r' : List Token}

theorem Near.genuine {ts : List Token} {other : Option (List Token)} (h : Near r r' ts other) :
    Genuine ts := by
  cases h with
  | within _ hts => exact hts
  | before _ hts _ => exact hts

theorem Near.genuine_end {ts ts' : List Token} (h : Near r r' ts (some ts')) : Genuine r' := by
  cases h with
  | before _ _ hr' => exact hr'

theorem Steady.left_le {o : Outcome α} (h : Steady r r' o none) : o.left.length ≤ r.length := by
  obtain ⟨-, hs | ⟨m, hm, ⟨x, -, hother⟩ | ⟨-, hother⟩⟩⟩ := h
  · exact hs
  · cases hother
  · cases hother

theorem Steady.of_none {o : Outcome α} (h : Steady r r' o none) (other : Option (Outcome α)) :
    Steady r r' o other :=
  ⟨h.1, Or.inl h.left_le⟩

theorem steadyAt_ok (x : α) (ts : List Token) : SteadyAt r r' (fun ts => .ok (x, ts)) ts := by
  intro other h
  cases h with
  | within h hts => exact ⟨hts, Or.inl h⟩
  | before hm hts _ => exact ⟨hts, Or.inr ⟨_, hm, Or.inl ⟨x, rfl, rfl⟩⟩⟩

theorem steadyAt_error (ts : List Token) :
    SteadyAt r r' (fun ts => (.error ts : Outcome α)) ts := by
  intro other h
  cases h with
  | within h hts => exact ⟨hts, Or.inl h⟩
  | before hm hts _ => exact ⟨hts, Or.inr ⟨_, hm, Or.inr ⟨rfl, rfl⟩⟩⟩

/-- Where nothing can be read, nothing is left. -/
theorem steadyAt_nil {read : List Token → Outcome α} (h : (read []).left = []) :
    SteadyAt r r' read [] := by
  intro other _
  exact ⟨by rw [h]; exact genuine_nil, Or.inl (by simp [h])⟩

theorem SteadyAt.map {read : List Token → Outcome α} {ts : List Token} (h : SteadyAt r r' read ts)
    (f : α → β) : SteadyAt r r' (fun ts => (read ts).map f) ts := by
  intro other hnear
  obtain ⟨hg, hs⟩ := h other hnear
  have hleft : ((read ts).map f).left = (read ts).left := by
    cases read ts <;> rfl
  refine ⟨by rw [hleft]; exact hg, ?_⟩
  rcases hs with hs | ⟨m, hm, ⟨x, hx, hother⟩ | ⟨hx, hother⟩⟩
  · exact Or.inl (by rw [hleft]; exact hs)
  · obtain ⟨ts', rfl, hread⟩ := Option.map_eq_some_iff.1 hother
    exact Or.inr ⟨m, hm, Or.inl ⟨f x, by simp only [hx, map_ok],
      by simp only [Option.map_some, hread, map_ok]⟩⟩
  · obtain ⟨ts', rfl, hread⟩ := Option.map_eq_some_iff.1 hother
    exact Or.inr ⟨m, hm, Or.inr ⟨by simp only [hx, map_error],
      by simp only [Option.map_some, hread, map_error]⟩⟩

theorem SteadyAt.andThen {read : List Token → Outcome α} {k : α → List Token → Outcome β}
    {ts : List Token} (h : SteadyAt r r' read ts)
    (next : ∀ x rest, read ts = .ok (x, rest) → SteadyAt r r' (k x) rest) :
    SteadyAt r r' (fun ts => (read ts).andThen k) ts := by
  intro other hnear
  obtain ⟨hg, hs⟩ := h other hnear
  dsimp only
  cases hread : read ts with
  | error rest =>
      rw [hread] at hg hs
      refine ⟨hg, ?_⟩
      rcases hs with hs | ⟨m, hm, ⟨x, hx, -⟩ | ⟨hx, hother⟩⟩
      · exact Or.inl hs
      · cases hx
      · obtain ⟨ts', rfl, hread'⟩ := Option.map_eq_some_iff.1 hother
        exact Or.inr ⟨m, hm, Or.inr ⟨by rw [hx, andThen_error],
          by rw [Option.map_some, hread', andThen_error]⟩⟩
  | ok p =>
      obtain ⟨x, rest⟩ := p
      have hnext := next x rest hread
      rw [hread] at hg hs
      rw [andThen_ok]
      rcases hs with hs | ⟨m, hm, ⟨y, hy, hother⟩ | ⟨hy, -⟩⟩
      · exact (hnext none (.within hs hg)).of_none _
      -- The first part ended before the tokens differ, so the second one reads on in both places.
      · obtain ⟨rfl, rfl⟩ : x = y ∧ rest = m ++ r := by simpa using hy
        obtain ⟨ts', rfl, hread'⟩ := Option.map_eq_some_iff.1 hother
        have hs := hnext _ (.before hm hg hnear.genuine_end)
        rwa [Option.map_some, hread', andThen_ok]
      · cases hy

/-- Reading on behind a first token that is passed over. -/
theorem SteadyAt.cons {read g : List Token → Outcome α} {t : Token} {rest : List Token}
    (h : SteadyAt r r' g rest) (hread : ∀ rest, read (t :: rest) = g rest) :
    SteadyAt r r' read (t :: rest) := by
  intro other hnear
  have hgenuine := (genuine_cons.1 hnear.genuine).2
  rw [hread]
  generalize hts : t :: rest = ts at hnear
  cases hnear with
  | within hlength =>
      rw [← hts, List.length_cons] at hlength
      exact (h none (.within (by omega) hgenuine)).of_none _
  | @before m hm _ hr' =>
      cases m with
      | nil => exact absurd rfl hm
      | cons b m =>
          obtain ⟨rfl, rfl⟩ : t = b ∧ rest = m ++ r := by simpa using hts
          cases m with
          -- The token that was passed over was the last one before the tokens differ.
          | nil => exact (h none (.within (Nat.le_refl _) hgenuine)).of_none _
          | cons c m =>
              have hother : read (t :: c :: m ++ r') = g (c :: m ++ r') := hread _
              rw [Option.map_some, hother]
              exact h _ (.before (by simp) hgenuine hr')

/-- A reader that is another one on tokens with the same head. -/
theorem SteadyAt.congr {read g : List Token → Outcome α} {t : Token} {rest : List Token}
    (h : SteadyAt r r' g (t :: rest)) (hread : ∀ rest, read (t :: rest) = g (t :: rest)) :
    SteadyAt r r' read (t :: rest) := by
  intro other hnear
  have hs := h other hnear
  rw [hread]
  generalize hts : t :: rest = ts at hnear
  cases hnear with
  | within => simpa [hts] using hs
  | @before m hm =>
      cases m with
      | nil => exact absurd rfl hm
      | cons b m =>
          obtain ⟨rfl, rfl⟩ : t = b ∧ rest = m ++ r := by simpa using hts
          have hother : read (t :: m ++ r') = g (t :: m ++ r') := hread _
          rw [Option.map_some, hother]
          exact hs

/-- Reading on behind two tokens, or behind the only one. -/
theorem SteadyAt.behind_two {g : List Token → Outcome α} {t : Token} {rest : List Token}
    (h : SteadyAt r r' g (rest.drop 1)) : SteadyAt r r' (fun ts => g (ts.drop 2)) (t :: rest) := by
  cases rest with
  | nil =>
      refine SteadyAt.cons (g := fun ts => g (ts.drop 1)) ?_ fun _ => rfl
      intro other hnear
      exact (h none (.within (by simp) genuine_nil)).of_none _
  | cons u rest =>
      refine SteadyAt.cons (g := fun ts => g (ts.drop 1)) ?_ fun _ => rfl
      exact SteadyAt.cons (g := g) h fun _ => rfl

/-- Whether a reader takes everything on some way to go on. -/
def Completes (read : List Token → Outcome α) (m : List Token) : Prop :=
  ∃ v x, Genuine v ∧ read (m ++ v) = .ok (x, [])

/-- A reader that takes everything on some way to go on leaves no more than what stands behind. -/
theorem left_le_of_completes {read : List Token → Outcome α} {m : List Token} (hm : m ≠ [])
    (hts : Genuine (m ++ r)) (h : ∀ r', SteadyAt r r' read (m ++ r)) (hread : Completes read m) :
    (read (m ++ r)).left.length ≤ r.length := by
  -- If the reader left more, it would do so with the other tokens too, where it takes them all.
  obtain ⟨v, x, hv, hread⟩ := hread
  obtain ⟨-, hs | ⟨m', hm', ⟨y, -, hother⟩ | ⟨-, hother⟩⟩⟩ := h v _ (.before hm hts hv)
  · exact hs
  · rw [Option.map_some, hread] at hother
    cases m' with
    | nil => exact absurd rfl hm'
    | cons t m' => simp at hother
  · rw [Option.map_some, hread] at hother
    cases hother

/-- A reader that chooses between two others by what stands at the head: the choice is the same, or
both go on to where the tokens differ. -/
theorem steadyAt_choice {c : List Token → Bool} {yes no : List Token → Outcome α}
    {ts : List Token} (hyes : ∀ r', SteadyAt r r' yes ts) (hno : ∀ r', SteadyAt r r' no ts)
    (hchoice : ∀ m, m ≠ [] → ts = m ++ r → Genuine m →
      c (m ++ r) = c (m ++ r') ∨ Completes yes m ∧ Completes no m) :
    SteadyAt r r' (fun ts => if c ts then yes ts else no ts) ts := by
  intro other hnear
  dsimp only
  cases hnear with
  | within hlength hts =>
      split
      · exact hyes r' none (.within hlength hts)
      · exact hno r' none (.within hlength hts)
  | @before m hm hts hr' =>
      have hnear := Near.before hm hts hr'
      rcases hchoice m hm rfl (genuine_append.1 hts).1 with hsame | ⟨hyes', hno'⟩
      · simp only [Option.map_some, ← hsame]
        split
        · exact hyes r' _ hnear
        · exact hno r' _ hnear
      -- The choice may differ, but then either reader leaves no more than `r`, and that is steady.
      · split
        · exact ⟨(hyes r' _ hnear).1, Or.inl (left_le_of_completes hm hts hyes hyes')⟩
        · exact ⟨(hno r' _ hnear).1, Or.inl (left_le_of_completes hm hts hno hno')⟩

end Outcome

namespace Phrase

open Outcome

variable {α β : Type} {r r' : List Token}

/-! ## Tokens, lists and fields -/

theorem steady_token (kind : TokenKind) (ts : List Token) : SteadyAt r r' (token kind) ts := by
  cases ts with
  | nil => exact steadyAt_nil rfl
  | cons t rest =>
      by_cases hk : t.kind = kind
      · exact (steadyAt_ok t rest).cons fun rest => by simp only [token, if_pos hk]
      · exact (steadyAt_error (t :: rest)).congr fun rest => by simp only [token, if_neg hk]

theorem steady_itemsRest {close : TokenKind} {items : List Token → Outcome (List α)} (x : α)
    {behind : List Token}
    (hitems : ∀ more, more.length < behind.length → SteadyAt r r' items more) :
    SteadyAt r r' (itemsRest close items x) behind := by
  cases behind with
  | nil => exact steadyAt_nil rfl
  | cons u more =>
      by_cases hcomma : u.kind = .comma
      · exact ((hitems more (by simp)).map (x :: ·)).cons fun more => by
          simp only [itemsRest, if_pos hcomma]
      · by_cases hclose : u.kind = close
        · exact (steadyAt_ok [x] more).cons fun more => by
            simp only [itemsRest, if_neg hcomma, if_pos hclose]
        · exact (steadyAt_error (u :: more)).congr fun more => by
            simp only [itemsRest, if_neg hcomma, if_neg hclose]

theorem steady_itemsStep {close : TokenKind} {item : (ts : List Token) → Reply α ts.length}
    {items : List Token → Outcome (List α)} {ts : List Token}
    (hitem : ts ≠ [] → SteadyAt r r' (fun ts => (item ts).outcome) ts)
    (hitems : ∀ more, more.length < ts.length → SteadyAt r r' items more) :
    SteadyAt r r' (itemsStep close (fun ts => (item ts).outcome) items) ts := by
  cases ts with
  | nil => exact steadyAt_nil rfl
  | cons t rest =>
      by_cases hclose : t.kind = close
      · exact (steadyAt_ok [] rest).cons fun rest => by simp only [itemsStep, if_pos hclose]
      · have first : SteadyAt r r' (fun ts => (item ts).outcome.andThen (itemsRest close items))
            (t :: rest) := by
          refine (hitem (by simp)).andThen fun x behind hread => ?_
          have hlt := Reply.length_lt_of_outcome hread
          exact steady_itemsRest x fun more hmore => hitems more (by omega)
        exact first.congr fun rest => by simp only [itemsStep, if_neg hclose]

theorem steady_fieldStep {value : List Token → Outcome α} {make : Token → α → β}
    {shorthand : Token → β} {ts : List Token}
    (hvalue : ∀ more, more.length < ts.length → SteadyAt r r' value more) :
    SteadyAt r r' (fieldStep value make shorthand) ts := by
  cases ts with
  | nil => exact steadyAt_nil rfl
  | cons t rest =>
      by_cases hkey : t.kind = .name ∨ t.kind = .string
      · refine SteadyAt.cons (g := fun rest => fieldStep value make shorthand (t :: rest)) ?_
          fun _ => rfl
        cases rest with
        | nil =>
            apply steadyAt_nil
            rcases hkey with hkey | hkey <;> simp [fieldStep, hkey, left]
        | cons u more =>
            by_cases hcolon : u.kind = .colon
            · refine ((hvalue more ?_).map (make t)).cons fun more => ?_
              · simp only [List.length_cons]
                omega
              · simp only [fieldStep, if_pos hkey, if_pos hcolon]
            · by_cases hname : t.kind = .name
              · exact (steadyAt_ok (shorthand t) (u :: more)).congr fun more => by
                  simp only [fieldStep, if_pos hkey, if_neg hcolon, if_pos hname]
              · exact (steadyAt_error (u :: more)).congr fun more => by
                  simp only [fieldStep, if_pos hkey, if_neg hcolon, if_neg hname]
      · exact (steadyAt_error (t :: rest)).congr fun rest => by simp only [fieldStep, if_neg hkey]

/-! ## Patterns -/

mutual

theorem steady_pattern (ts : List Token) : SteadyAt r r' (fun ts => (pattern ts).outcome) ts := by
  match ts with
  | [] => exact steadyAt_nil (by rw [outcome_pattern]; rfl)
  | t :: rest =>
      by_cases hname : t.kind = .name
      · exact (steadyAt_ok (bindName t) rest).cons fun rest => by
          simp only [outcome_pattern, hname]
      · by_cases hsqb : t.kind = .lsqb
        · exact ((steady_patterns .rsqb rest).map (.array (some t.pos))).cons fun rest => by
            simp only [outcome_pattern, hsqb]
        · by_cases hbrace : t.kind = .lbrace
          · exact ((steady_patternFields rest).map (.record (some t.pos))).cons fun rest => by
              simp only [outcome_pattern, hbrace]
          · refine (steadyAt_error (t :: rest)).congr fun rest => ?_
            rw [outcome_pattern]
            dsimp only
            split <;> simp_all
termination_by 2 * ts.length
decreasing_by all_goals (simp only [List.length_cons] at *; omega)

theorem steady_patterns (close : TokenKind) (ts : List Token) :
    SteadyAt r r' (fun ts => (patterns close ts).outcome) ts := by
  rw [funext (outcome_patterns close)]
  exact steady_itemsStep (fun _ => steady_pattern ts) fun more hlt => steady_patterns close more
termination_by 2 * ts.length + 1
decreasing_by all_goals omega

theorem steady_patternFields (ts : List Token) :
    SteadyAt r r' (fun ts => (patternFields ts).outcome) ts := by
  rw [funext outcome_patternFields]
  exact steady_itemsStep (fun _ => steady_patternField ts) fun more hlt => steady_patternFields more
termination_by 2 * ts.length + 1
decreasing_by all_goals omega

theorem steady_patternField (ts : List Token) :
    SteadyAt r r' (fun ts => (patternField ts).outcome) ts := by
  simp only [outcome_patternField]
  exact steady_fieldStep fun more hlt => steady_pattern more
termination_by 2 * ts.length
decreasing_by all_goals omega

end

theorem steady_params (ts : List Token) : SteadyAt r r' (fun ts => (params ts).outcome) ts := by
  simp only [outcome_params]
  exact (steady_token .lpar ts).andThen fun t rest _ => (steady_patterns .rpar rest).map _

end Phrase

end VariantScript.Syntax
