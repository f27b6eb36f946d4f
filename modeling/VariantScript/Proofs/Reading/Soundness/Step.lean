import VariantScript.Proofs.Grammar.Correspondence
import VariantScript.Proofs.Grammar.Genuine
import VariantScript.Proofs.Reading.Outcome

/-!
# Reading within the grammar

What a reader takes from genuine tokens is a part of a script and has the tree of the phrase that
was read, and where a reader fails, the tokens before can still go on to such a part.  The first
half keeps reading from accepting too much, the second from refusing a token too late.  Here is what
tokens, lists and fields hand on of it.
-/

namespace VariantScript.Syntax

open Grammar

namespace Outcome

variable {α α' β β' : Type} {ts : List Token}

/-- What was read is written as the tokens before what is left, by a predicate on tokens and trees;
where reading failed, the tokens before can go on to some that are written so. -/
def Sound (o : Outcome α) (ts : List Token) (tree : α → β) (P : List Token → β → Prop) : Prop :=
  match o with
  | .ok (x, rest) => ∃ w, ts = w ++ rest ∧ P w (tree x)
  | .error rest => ∃ w, ts = w ++ rest ∧ ∃ v b, P (w ++ v) b

theorem Sound.mono {o : Outcome α} {tree : α → β} {P Q : List Token → β → Prop}
    (h : o.Sound ts tree P) (hPQ : ∀ w b, P w b → Q w b) : o.Sound ts tree Q := by
  unfold Sound at h ⊢
  split at h
  · obtain ⟨w, hw, hP⟩ := h
    exact ⟨w, hw, hPQ _ _ hP⟩
  · obtain ⟨w, hw, v, b, hP⟩ := h
    exact ⟨w, hw, v, b, hPQ _ _ hP⟩

/-- The phrase that was read, changed with regard to the tokens that it is written as. -/
theorem Sound.map_along {o : Outcome α} {tree : α → β} {tree' : α' → β'} {f : α → α'}
    {P : List Token → β → Prop} {Q : List Token → β' → Prop} (h : o.Sound ts tree P)
    (hread : ∀ w rest x, ts = w ++ rest → P w (tree x) → Q w (tree' (f x)))
    (hfail : ∀ w b, P w b → ∃ c, Q w c) : (o.map f).Sound ts tree' Q := by
  cases o with
  | ok p =>
      obtain ⟨w, hw, hP⟩ := h
      exact ⟨w, hw, hread _ _ _ hw hP⟩
  | error rest =>
      obtain ⟨w, hw, v, b, hP⟩ := h
      exact ⟨w, hw, v, hfail _ _ hP⟩

theorem Sound.map {o : Outcome α} {tree : α → β} {tree' : α' → β'} {f : α → α'} {g : β → β'}
    {P : List Token → β → Prop} {Q : List Token → β' → Prop} (h : o.Sound ts tree P)
    (htree : ∀ x, tree' (f x) = g (tree x)) (hPQ : ∀ w b, P w b → Q w (g b)) :
    (o.map f).Sound ts tree' Q :=
  h.map_along (fun w _ x _ hP => by rw [htree]; exact hPQ w (tree x) hP)
    fun w b hP => ⟨g b, hPQ w b hP⟩

/-- Reading behind tokens that are passed over. -/
theorem Sound.behind {o : Outcome α} {u : List Token} {tree : α → β} {P : List Token → β → Prop}
    (h : o.Sound ts tree fun w b => P (u ++ w) b) : o.Sound (u ++ ts) tree P := by
  unfold Sound at h ⊢
  split at h
  · obtain ⟨w, rfl, hP⟩ := h
    exact ⟨u ++ w, by simp, hP⟩
  · obtain ⟨w, rfl, v, b, hP⟩ := h
    exact ⟨u ++ w, by simp, v, b, by simpa using hP⟩

theorem Sound.cons {o : Outcome α} {t : Token} {tree : α → β} {P : List Token → β → Prop}
    (h : o.Sound ts tree fun w b => P (t :: w) b) : o.Sound (t :: ts) tree P :=
  Sound.behind (u := [t]) h

/-- Reading on behind a phrase: what is written so far can go on, and what is read behind it goes on
with it. -/
theorem Sound.andThen {m : Nat} {r : Reply α m} {k : α → List Token → Outcome α'} {tree : α → β}
    {tree' : α' → β'} {P : List Token → β → Prop} {Q : List Token → β' → Prop}
    (hts : Genuine ts) (h : r.outcome.Sound ts tree P) (goes : ∀ w b, P w b → ∃ v c, Q (w ++ v) c)
    (next : ∀ x rest, rest.length < m → Genuine rest → ∀ w, ts = w ++ rest → P w (tree x) →
      (k x rest).Sound rest tree' fun v c => Q (w ++ v) c) :
    (r.outcome.andThen k).Sound ts tree' Q := by
  cases r with
  | ok x rest short =>
      obtain ⟨w, rfl, hP⟩ := h
      have hnext := next x rest short (genuine_append.1 hts).2 w rfl hP
      simp only [Reply.outcome_ok, andThen_ok]
      unfold Sound at hnext ⊢
      split
      · rename_i y left heq
        rw [heq] at hnext
        obtain ⟨v, rfl, hQ⟩ := hnext
        exact ⟨w ++ v, by simp, hQ⟩
      · rename_i left heq
        rw [heq] at hnext
        obtain ⟨v, rfl, u, c, hQ⟩ := hnext
        exact ⟨w ++ v, by simp, u, c, by simpa using hQ⟩
  -- Reading failed in the first part: what is written so far goes on to a whole part, which goes on
  -- to a phrase of the second kind.
  | fail rest =>
      obtain ⟨w, rfl, v, b, hP⟩ := h
      obtain ⟨u, c, hQ⟩ := goes _ _ hP
      exact ⟨w, rfl, v ++ u, c, by simpa using hQ⟩

theorem Sound.orFurther {o : Outcome α} {other : List Token} {tree : α → β}
    {P : List Token → β → Prop} (h : o.Sound ts tree P)
    (hother : ∃ w, ts = w ++ other ∧ ∃ v b, P (w ++ v) b) :
    (o.orFurther other).Sound ts tree P := by
  cases o with
  | ok p => exact h
  | error rest =>
      simp only [orFurther_error]
      split
      · exact hother
      · exact h

end Outcome

namespace Phrase

open Outcome

variable {α α' β β' : Type} {ts : List Token}

/-- Reading on behind a token of a kind. -/
theorem sound_token {kind : TokenKind} {k : Token → List Token → Outcome α'} {tree' : α' → β'}
    {Q : List Token → β' → Prop} (hts : Genuine ts)
    (goes : ∀ t : Token, t.Is kind → ∃ v c, Q (t :: v) c)
    (next : ∀ t rest, ts = t :: rest → Genuine rest → t.Is kind →
      (k t rest).Sound rest tree' fun v c => Q (t :: v) c) :
    ((token kind ts).andThen k).Sound ts tree' Q := by
  cases ts with
  | nil =>
      obtain ⟨v, c, hQ⟩ := goes kind.sample kind.sample_is
      exact ⟨[], rfl, kind.sample :: v, c, hQ⟩
  | cons t rest =>
      rw [genuine_cons] at hts
      simp only [token]
      split
      · rename_i hkind
        exact (next t rest rfl hts.2 ⟨hkind, hts.1⟩).cons
      · obtain ⟨v, c, hQ⟩ := goes kind.sample kind.sample_is
        exact ⟨[], rfl, kind.sample :: v, c, hQ⟩

/-- Instances of a rule with commas between them, and the mark that closes them. -/
def WritesList (r : Rule) (close : TokenKind) (w : List Token) (ns : List Node) : Prop :=
  ∃ u c, w = u ++ [c] ∧ c.Is close ∧ Produces (.list r) u ns

/-- An instance of a rule. -/
abbrev Writes (r : Rule) (w : List Token) (n : Node) : Prop :=
  Produces (.one r) w [n]

/-- Items with commas between them are written as the rule of the items says. -/
theorem sound_itemsStep {r : Rule} {close : TokenKind}
    {item : (ts : List Token) → Reply α ts.length} {items : List Token → Outcome (List α)}
    {toNode : α → Node} (hts : Genuine ts)
    (hitem : ts ≠ [] → (item ts).outcome.Sound ts toNode (Writes r))
    (hitems : ∀ more, more.length < ts.length → Genuine more →
      (items more).Sound more (List.map toNode) (WritesList r close)) :
    (itemsStep close (fun ts => (item ts).outcome) items ts).Sound ts (List.map toNode)
      (WritesList r close) := by
  have closed (t : Token) (ht : t.Is close) : WritesList r close [t] [] :=
    ⟨[], t, rfl, ht, .listNil⟩
  have last {w : List Token} {b : Node} (hb : Writes r w b) (c : Token) (hc : c.Is close) :
      WritesList r close (w ++ [c]) [b] := ⟨w, c, rfl, hc, .listLast hb⟩
  cases ts with
  | nil => exact ⟨[], rfl, [close.sample], [], closed _ close.sample_is⟩
  | cons t rest =>
      simp only [itemsStep]
      split
      · rename_i hkind
        exact ⟨[t], rfl, closed t ⟨hkind, (genuine_cons.1 hts).1⟩⟩
      -- Wherever the list does not go on as it should, a closing mark would have ended it.
      · refine Sound.andThen hts (hitem (by simp)) (fun w b hb => ?_)
          (fun x behind hlt hbehind w _ hw => ?_)
        · exact ⟨[close.sample], [b], last hb _ close.sample_is⟩
        · cases behind with
          | nil => exact ⟨[], rfl, [close.sample], [toNode x], last hw _ close.sample_is⟩
          | cons u more =>
              rw [genuine_cons] at hbehind
              simp only [itemsRest]
              split
              · rename_i hcomma
                refine Sound.cons (Sound.map (hitems more ?_ hbehind.2) (g := (toNode x :: ·))
                  (fun _ => rfl) ?_)
                · simp only [List.length_cons] at hlt ⊢
                  omega
                · rintro v ns ⟨v, c, rfl, hc, hv⟩
                  exact ⟨w ++ u :: v, c, by simp, hc, .listMore hw ⟨hcomma, hbehind.1⟩ hv⟩
              · split
                · rename_i hclose
                  exact ⟨[u], rfl, last hw u ⟨hclose, hbehind.1⟩⟩
                · exact ⟨[], rfl, [close.sample], [toNode x], last hw _ close.sample_is⟩

/-- Reading the token that ends a phrase. -/
theorem sound_closing {kind : TokenKind} {x : α'} {tree' : α' → β'}
    {Q : List Token → β' → Prop} (hts : Genuine ts)
    (closed : ∀ c : Token, c.Is kind → Q [c] (tree' x)) :
    ((token kind ts).map fun _ => x).Sound ts tree' Q := by
  rw [map_eq_andThen]
  exact sound_token hts (fun c hc => ⟨[], _, closed c hc⟩) fun c rest _ _ hc =>
    ⟨[], rfl, closed c hc⟩

/-- A field is written as a key, a colon and a value, or as a name. -/
theorem sound_fieldStep {r f : Rule} {value : List Token → Outcome α} {make : Token → α → β}
    {shorthand : Token → β} {toNode : α → Node} {toNode' : β → Node} {g : Token → Node → Node}
    (hts : Genuine ts) (hvalue : ∀ more, more.length < ts.length → Genuine more →
      (value more).Sound more toNode (Writes r))
    (sample : ∃ w b, Writes r w b)
    (hfield : ∀ k c w b, k.IsKey → c.Is .colon → Writes r w b → Writes f (k :: c :: w) (g k b))
    (hshorthand : ∀ t : Token, t.Is .name → Writes f [t] (toNode' (shorthand t)))
    (htree : ∀ k x, k.IsKey → toNode' (make k x) = g k (toNode x)) :
    (fieldStep value make shorthand ts).Sound ts toNode' (Writes f) := by
  obtain ⟨ws, bs, hsample⟩ := sample
  have keyed (k : Token) (hk : k.IsKey) : ∃ v b, Writes f (k :: v) b :=
    ⟨TokenKind.colon.sample :: ws, g k bs, hfield k _ ws bs hk TokenKind.colon.sample_is hsample⟩
  -- Where no key stands, a shorthand would have been right, whatever comes then.
  have unread (rest : List Token) : ∃ w, rest = w ++ rest ∧ ∃ v b, Writes f (w ++ v) b :=
    ⟨[], rfl, _, _, hshorthand _ TokenKind.name.sample_is⟩
  cases ts with
  | nil => exact unread []
  | cons t rest =>
      obtain ⟨ht, hrest⟩ := genuine_cons.1 hts
      simp only [fieldStep]
      split
      · rename_i hkind
        have hkey : t.IsKey := hkind.imp (⟨·, ht⟩) (⟨·, ht⟩)
        cases rest with
        | nil =>
            simp only
            split
            · rename_i hname
              exact ⟨[t], rfl, hshorthand t ⟨hname, ht⟩⟩
            · obtain ⟨v, b, hv⟩ := keyed t hkey
              exact ⟨[t], rfl, v, b, hv⟩
        | cons u more =>
            simp only
            split
            · rename_i hcolon
              refine Sound.cons (Sound.cons ?_)
              have hmore := hvalue more (by simp only [List.length_cons]; omega)
                (genuine_cons.1 hrest).2
              have hu : u.Is .colon := ⟨hcolon, (genuine_cons.1 hrest).1⟩
              exact Sound.map hmore (htree t · hkey) fun w b hb => hfield t u w b hkey hu hb
            · split
              · rename_i hname
                exact ⟨[t], rfl, hshorthand t ⟨hname, ht⟩⟩
              · obtain ⟨v, b, hv⟩ := keyed t hkey
                exact ⟨[t], rfl, v, b, hv⟩
      · exact unread (t :: rest)

end Phrase

end VariantScript.Syntax
