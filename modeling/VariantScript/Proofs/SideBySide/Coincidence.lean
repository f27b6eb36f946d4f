import VariantScript.Proofs.SideBySide.Between

/-!
# Names that occur

What an expression does depends on the names that occur in it and on nothing else of the scope in
which it is evaluated.  A function is told apart by its text and by what the names in its body mean
where it was made, so that what a name means and which values are the same depend on each other; the
coarsest such relation is the one that is meant.
-/

namespace VariantScript

open Syntax Eval

/-! ## Scopes that agree on names -/

/-- Values are the same if their functions have the same text and were made in scopes that agree on
the names in the body. -/
def Matching.ofAgreement (agrees : ScopeId → ScopeId → String → Prop) : Matching where
  ids i j := j = i
  scopes body s s' := ∀ name, body.Mentions name → agrees s s' name

namespace World

/-- Wherever two scopes agree on a name, both have values of that name that are the same, or neither
has one. -/
def IsAgreement (w w' : World) (agrees : ScopeId → ScopeId → String → Prop) : Prop :=
  ∀ s s' name, agrees s s' name →
    Option.Rel (Value.Matches (.ofAgreement agrees)) (w.lookup? s name) (w'.lookup? s' name)

/-- A name means the same in a scope of one world and in a scope of another. -/
def Agree (w w' : World) (s s' : ScopeId) (name : String) : Prop :=
  ∃ agrees, w.IsAgreement w' agrees ∧ agrees s s' name

/-- Values of two worlds that are the same: what they are made of is, and their functions have the
same text and find the same under the names in their bodies. -/
def Alike (w w' : World) : Value → Value → Prop :=
  Value.Matches (.ofAgreement (w.Agree w'))

variable {w w' : World} {agrees : ScopeId → ScopeId → String → Prop}

theorem IsAgreement.within (h : w.IsAgreement w' agrees) :
    (Matching.ofAgreement agrees).Within (.ofAgreement (w.Agree w')) :=
  ⟨id, fun hscopes name hname => ⟨agrees, h, hscopes name hname⟩⟩

/-- A name means the same in two scopes exactly if it has values there that are the same, or none. -/
theorem agree_iff {s s' : ScopeId} {name : String} :
    w.Agree w' s s' name ↔
      Option.Rel (w.Alike w') (w.lookup? s name) (w'.lookup? s' name) := by
  have hforth {s s' : ScopeId} {name : String} (h : w.Agree w' s s' name) :
      Option.Rel (w.Alike w') (w.lookup? s name) (w'.lookup? s' name) := by
    obtain ⟨agrees, hagreement, hname⟩ := h
    exact optionRel_imp (hagreement s s' name hname) fun _ _ hv => hv.mono hagreement.within
  refine ⟨hforth, fun h => ?_⟩
  -- The scopes that have such values agree, and those that the values refer to already do.
  refine ⟨fun s s' name => Option.Rel (w.Alike w') (w.lookup? s name) (w'.lookup? s' name),
    fun s s' name hname => optionRel_imp hname fun _ _ hv => hv.mono ⟨id, fun hscopes name hin => ?_⟩,
    h⟩
  exact hforth (hscopes name hin)

/-- Scopes of one world in which a name has the same value, or none, agree on it. -/
theorem agree_of_lookup? {s s' : ScopeId} {name : String}
    (h : w.lookup? s name = w.lookup? s' name) : w.Agree w s s' name := by
  refine ⟨fun s s' name => w.lookup? s name = w.lookup? s' name, fun s s' name hsame => ?_, h⟩
  rw [← hsame]
  cases w.lookup? s name with
  | none => exact .none
  | some v => exact .some (Value.matches_self (fun _ => rfl) (fun _ _ _ _ => rfl) v)

end World

namespace Start

variable {b : Start} {p : Pair}

/-- Where no identity is renamed, scopes that see a name alike agree on it. -/
theorem Holds.alike_within (h : b.Holds p) (hshift : b.shift = 0) :
    (b.matching p).Within (.ofAgreement (p.left.Agree p.right)) := by
  have hseen : (b.matching p).Within (.ofAgreement fun s s' name => b.Sees p name s s') :=
    ⟨fun hi => hi.2.trans (rename_eq_self hshift _), fun hserves _ hname => hserves.sees hname⟩
  have hagreement : p.left.IsAgreement p.right fun s s' name => b.Sees p name s s' :=
    fun s s' name hsees => optionRel_imp (h.lookup? hsees) fun _ _ hv => hv.mono hseen
  exact ⟨fun hi => hseen.ids hi, fun hserves => hagreement.within.scopes (hseen.scopes hserves)⟩

end Start

/-! ## Coincidence -/

/-- Names that do not occur have no influence.  Let an expression of a text be evaluated in either of
two scopes of a world in which a script can be, and let every name that occurs in it have the same
value in both scopes or none in both.  Then both evaluations give the same value, or stop for the same
cause at the same place, and show the same values in the same order.  Here functions are the same if
they have the same parameters and the same body and were made in scopes where each name in the body
has the same value or none. -/
theorem evaluate_coincides {e : Term} (he : e.IsInText) {w : World} (hw : w.Occurs)
    {s s' : ScopeId} (hs : s.index < w.scopes.size) (hs' : s'.index < w.scopes.size)
    (hnames : ∀ name, e.Mentions name →
      Option.Rel (w.Alike w) (w.lookup? s name) (w.lookup? s' name)) (n : Nat) :
    let one := (evaluate (callAt n) s e).run.run w
    let other := (evaluate (callAt n) s' e).run.run w
    ExceptRel (Stop.Matches (.ofAgreement (one.2.Agree other.2))) (one.2.Alike other.2)
        one.1 other.1 ∧
      ∃ shown shown' : List Value,
        one.2.events.toList = w.events.toList ++ shown.map w.observer.event ∧
        other.2.events.toList = w.events.toList ++ shown'.map w.observer.event ∧
        List.Forall₂ (one.2.Alike other.2) shown shown' := by
  intro one other
  have hclosed := hw.isClosed
  let b : Start := .between w w
    (fun t t' => t.index < w.scopes.size ∧ t'.index < w.scopes.size) (w.Agree w) False
    hclosed.serial rfl id
  have hholds : b.Holds ⟨w, w⟩ := by
    refine Start.holds_between (Nat.le_refl _) rfl fun {t t' name} _ hagree => ?_
    have hleft := hclosed.lookup? t name
    have hright := hclosed.lookup? t' name
    have hvalues := World.agree_iff.1 hagree
    generalize w.lookup? t name = left, w.lookup? t' name = right at hleft hright hvalues
    cases hvalues with
    | none => exact .none
    | some hv => cases hleft with
      | some hleft => cases hright with
        | some hright =>
            -- The values exist in the world, so what they refer to was there at the start.
            refine .some ((hv.inter hleft hright).mono ⟨fun hi => ?_, fun hscopes => ?_⟩)
            · exact ⟨hi.2.1.1, hi.1.trans (Start.rename_old hi.2.1.1).symm⟩
            · have hold := And.intro hscopes.2.1.1 hscopes.2.2.1
              exact ⟨.inl hold, fun {name} hname => .settled hold (hscopes.1 name hname)⟩
  have hplace : b.Place ⟨w, w⟩ e s s' := Start.place_between he.isWritten ⟨hs, hs'⟩
    fun name hname => World.agree_iff.2 (hnames name hname)
  have hcall : b.CallsSideBySide n n := Start.callsSideBySide b (.inl rfl)
  obtain ⟨-, hq, hresult⟩ :=
    (Start.sideBySide_evaluate hcall e hplace).inStep rfl id hholds
  have hwithin := hq.alike_within (Nat.sub_self _)
  exact ⟨hresult.mono hwithin, hq.shown hwithin⟩

/-- A function in a scope with a name of its own and in a new scope without this name, which does not
occur in it. -/
theorem evaluate_coincides_reset :
    ∃ e : Term, e.IsInText ∧
      let session := ((Session.start false .absent).evaluateText "let y = true").2
      let w := session.reset.world
      let one := (evaluate (callAt 0) session.scope e).run.run w
      let other := (evaluate (callAt 0) session.reset.scope e).run.run w
      "y" ∈ w.names session.scope ∧ "y" ∉ w.names session.reset.scope ∧
        ExceptRel (Stop.Matches (.ofAgreement (one.2.Agree other.2))) (one.2.Alike other.2)
          one.1 other.1 := by
  have hfunction : (Program.read "x => equal".toList).toOption.any (fun program =>
      program.form.parts.any fun t => t.form.parts.any fun e => e.form.isExpression &&
        match e with
        | .node _ (.arrow _ (.node _ (.reference name))) => name.text == "equal"
        | _ => false) = true := by
    decide +kernel
  obtain ⟨e, he, hname⟩ := Syntax.exists_isInText hfunction
  have hafter : (Session.start false .absent).Reaches
      ((Session.start false .absent).evaluateText "let y = true").2 := .evaluated .here _
  have hnames : "y" ∈ ((Session.start false .absent).evaluateText "let y = true").2.reset.world.names
        ((Session.start false .absent).evaluateText "let y = true").2.scope ∧
      "y" ∉ ((Session.start false .absent).evaluateText "let y = true").2.reset.world.names
        ((Session.start false .absent).evaluateText "let y = true").2.reset.scope := by
    decide +kernel
  have hscope : ((Session.start false .absent).evaluateText "let y = true").2.scope =
      (Session.ofWorld (.new false .absent)).scope := by
    decide +kernel
  generalize ((Session.start false .absent).evaluateText "let y = true").2 = session
    at hafter hnames hscope
  have hs := (hafter.isClosed (Session.isClosed_start _ _)).scope
  have hs' := (hafter.reset.isClosed (Session.isClosed_start _ _)).scope
  have hlater : session.world.Extends session.reset.world := .pushed rfl
  refine ⟨e, he, hnames.1, hnames.2, (evaluate_coincides he (.between hafter.reset)
    (Nat.lt_of_lt_of_le hs hlater.size_le) hs' (fun name hmentions => ?_) 0).1⟩
  obtain rfl : name = "equal" := by
    split at hname
    · simpa [Syntax.Term.mentions_iff, Form.parts, beq_iff_eq.1 hname, eq_comm] using hmentions
    · cases hname
  have hold : (Session.ofWorld (.new false .absent)).world.Extends session.reset.world :=
    hafter.reset.extends_world
  refine World.agree_iff.1 (World.agree_of_lookup? ?_)
  rw [hscope, (Session.hasIntrinsics_of_extends hold).2]
  exact (Session.hasIntrinsics_of_extends (.refl session.reset.world)).2.symm

end VariantScript
