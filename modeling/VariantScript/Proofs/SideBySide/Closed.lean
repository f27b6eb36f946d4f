import VariantScript.Proofs.Evaluation.WellFormed
import VariantScript.Proofs.SideBySide.Moments

/-!
# Worlds in which nothing is missing

A world is closed if its values have identities that were taken and its functions were made in scopes
that exist, inside older ones.  Then two runs from this world correspond from the start with
everything standing for itself, so that all that a run leaves behind is closed again.  Every world in
which a script can be is closed.

The same correspondence relates runs from worlds that differ in their observers only.
-/

namespace VariantScript

open Syntax Eval

/-! ## Closed worlds -/

namespace World

/-- What exists in a world stands for itself. -/
def own (w : World) : Matching where
  ids i j := i.serial < w.nextSerial ∧ j = i
  scopes _ s s' := s.index < w.scopes.size ∧ s' = s

/-- Every identity and every scope that occurs in the world exists, and scopes lie inside older
ones. -/
structure IsClosed (w : World) : Prop where
  serial : Identity.firstFree ≤ w.nextSerial
  values {i : Nat} {scope : Scope} (hscope : w.scopes[i]? = some scope) :
    scope.vars.Matches w.own scope.vars
  parents {i : Nat} {scope : Scope} {q : ScopeId} (hscope : w.scopes[i]? = some scope)
    (hparent : scope.parent = some q) : q.index < i

/-- The world with another observer. -/
def observing (observer : Observer) (w : World) : World :=
  { w with observer := observer }

variable {w w' : World}

theorem own_equates (w : World) : w.own.Equates :=
  ⟨fun h => h.2, fun h => h.2⟩

theorem own_within (hserial : w.nextSerial ≤ w'.nextSerial)
    (hsize : w.scopes.size ≤ w'.scopes.size) : w.own.Within w'.own :=
  ⟨fun h => ⟨Nat.lt_of_lt_of_le h.1 hserial, h.2⟩, fun h => ⟨Nat.lt_of_lt_of_le h.1 hsize, h.2⟩⟩

theorem IsClosed.of_same (h : w.IsClosed) (hscopes : w'.scopes = w.scopes)
    (hserial : w'.nextSerial = w.nextSerial) : w'.IsClosed where
  serial := hserial ▸ h.serial
  values hscope :=
    (h.values (hscopes ▸ hscope)).mono (own_within (Nat.le_of_eq hserial.symm)
      (Nat.le_of_eq (congrArg Array.size hscopes.symm)))
  parents hscope := h.parents (hscopes ▸ hscope)

theorem isClosed_new (legacy : Bool) (observer : Observer) : (new legacy observer).IsClosed :=
  ⟨Nat.le_refl _, nofun, nofun⟩

/-- The names that every script finds refer to nothing but what is new. -/
theorem IsClosed.openRoot (h : w.IsClosed) : w.openRoot.2.IsClosed := by
  have hwithin : w.own.Within w.openRoot.2.own :=
    own_within (Nat.le_succ _) (by simp [World.openRoot])
  have hscopes {i : Nat} {scope : Scope} (hscope : w.openRoot.2.scopes[i]? = some scope) :
      w.scopes[i]? = some scope ∨ scope = ⟨none, rootVars ⟨w.nextSerial⟩, false⟩ := by
    simp only [World.openRoot, Array.getElem?_push] at hscope
    split at hscope
    · exact .inr (Option.some.inj hscope).symm
    · exact .inl hscope
  have hfunctions : Slots.Matches w.openRoot.2.own
      (Builtin.all.map fun f => (f.name, Value.builtin f))
      (Builtin.all.map fun f => (f.name, Value.builtin f)) := by
    refine List.forall₂_same.2 fun slot hslot => ?_
    obtain ⟨f, -, rfl⟩ := List.mem_map.1 hslot
    exact ⟨rfl, .builtin⟩
  refine ⟨Nat.le_succ_of_le h.serial, fun hscope => ?_, fun hscope hparent => ?_⟩
  · rcases hscopes hscope with hold | rfl
    · exact (h.values hold).mono hwithin
    · exact .cons ⟨rfl, Value.matches_record ⟨Nat.lt_succ_self _, rfl⟩ hfunctions⟩
        (.cons ⟨rfl, .builtin⟩ .nil)
  · rcases hscopes hscope with hold | rfl
    · exact h.parents hold hparent
    · cases hparent

end World

/-! ## Runs from one world -/

namespace Start

/-- Two runs start from one world, with an observer each. -/
def alone (events : List Event) (observer observer' : Observer)
    (fits : observer.failure? = none ∨ observer'.failure? = observer.failure?) : Start where
  serial := Identity.firstFree
  shift := 0
  left := 0
  right := 0
  old _ _ := False
  agree _ _ _ := True
  before := events
  before' := events
  observer := observer
  observer' := observer'
  lax := False
  firstFree_le := Nat.le_refl _
  old_lt := False.elim
  fits := fits

theorem rename_eq_self {b : Start} (h : b.shift = 0) (i : Identity) : b.rename i = i := by
  unfold rename
  rw [h]
  split <;> rfl

section

variable {events : List Event} {observer observer' : Observer}
  {fits : observer.failure? = none ∨ observer'.failure? = observer.failure?} {p : Pair}
  {w : World} {s s' : ScopeId} {n : Nat}

theorem alone_opened (h : s.index < p.left.scopes.size) :
    (alone events observer observer' fits).Opened p s s :=
  ⟨Nat.zero_le _, h, rfl⟩

theorem alone_linked (h : (alone events observer observer' fits).Linked p s s') :
    s.index < p.left.scopes.size ∧ s' = s := by
  rcases h with hold | hopened
  · exact hold.elim
  · exact ⟨hopened.lt, congrArg ScopeId.mk hopened.aligned⟩

theorem alone_within (p : Pair) :
    ((alone events observer observer' fits).matching p).Within p.left.own :=
  ⟨fun h => ⟨h.1, h.2.trans (rename_eq_self rfl _)⟩, fun h => alone_linked h.linked⟩

/-- From one world every scope sees what it sees. -/
theorem alone_sees (h : p.left.IsClosed) (hscopes : p.right.scopes = p.left.scopes)
    (hs : s.index < p.left.scopes.size) (name : String) :
    (alone events observer observer' fits).Sees p name s s := by
  induction hindex : s.index using Nat.strongRecOn generalizing s with
  | ind i ih =>
      have hscope := Array.getElem?_eq_getElem hs
      have hscope' : p.right.scopes[s.index]? = some p.left.scopes[s.index] := by
        rw [hscopes, hscope]
      cases hparent : p.left.scopes[s.index].parent with
      | none => exact .outermost (alone_opened hs) hscope hparent
      | some q =>
          have hlt := h.parents hscope hparent
          exact .inside (alone_opened hs) hscope hscope' hparent hparent
            (ih _ (hindex ▸ hlt) (Nat.lt_trans hlt hs) rfl)

theorem alone_serves (h : p.left.IsClosed) (hscopes : p.right.scopes = p.left.scopes)
    (hs : s.index < p.left.scopes.size) (body : Term) :
    (alone events observer observer' fits).Serves p body s s :=
  ⟨.inr (alone_opened hs), fun {name} _ => alone_sees h hscopes hs name⟩

theorem own_within_alone (h : p.left.IsClosed) (hscopes : p.right.scopes = p.left.scopes) :
    p.left.own.Within ((alone events observer observer' fits).matching p) where
  ids hi := ⟨hi.1, hi.2.trans (rename_eq_self rfl _).symm⟩
  scopes {body s s'} hs := by
    obtain ⟨hlt, rfl⟩ := hs
    exact alone_serves h hscopes hlt body

/-- A closed world corresponds to itself, whatever the observers. -/
theorem holds_alone (h : w.IsClosed) :
    (alone w.events.toList observer observer' fits).Holds
      ⟨w.observing observer, w.observing observer'⟩ := by
  have hclosed : (w.observing observer).IsClosed := h.of_same rfl rfl
  have hwithin : (w.observing observer).own.Within
      ((alone w.events.toList observer observer' fits).matching
        ⟨w.observing observer, w.observing observer'⟩) :=
    own_within_alone (p := ⟨w.observing observer, w.observing observer'⟩) hclosed rfl
  refine ⟨rfl, rfl, rfl, h.serial, rfl, Nat.zero_le _, rfl, fun {s s'} hopened => ?_,
    False.elim, [], [], by simp [alone, World.observing], by simp [alone, World.observing], .nil,
    fun _ => rfl⟩
  have hlt := hopened.lt
  obtain rfl : s' = s := congrArg ScopeId.mk hopened.aligned
  have hscope := Array.getElem?_eq_getElem hlt
  refine ⟨_, _, hscope, hscope, rfl, (hclosed.values hscope).mono hwithin, ?_, ?_⟩
  · cases hparent : (w.observing observer).scopes[s'.index].parent with
    | none => exact .none
    | some q =>
        have hq := h.parents hscope hparent
        exact .some ⟨hq, hq, .inr (alone_opened (Nat.lt_trans hq hlt))⟩
  · have hsame : (w.observing observer).Extends (w.observing observer') := .of_scopes rfl
    exact hsame.isInCall hlt

/-- Worlds that correspond so are the same but for their observers and events. -/
theorem Holds.alone_scopes (h : (alone events observer observer' fits).Holds p) :
    p.right.scopes = p.left.scopes := by
  refine (Array.ext h.aligned.symm fun i hi hi' => ?_).symm
  obtain ⟨scope, scope', hmatch⟩ := h.opened (alone_opened hi)
  have hleft := hmatch.left
  have hright := hmatch.right
  rw [Array.getElem?_eq_getElem hi] at hleft
  rw [Array.getElem?_eq_getElem hi'] at hright
  rw [Option.some.inj hleft, Option.some.inj hright]
  have hvars := (hmatch.vars.mono (alone_within p)).eq p.left.own_equates
  have hparents := hmatch.parents
  have hcall := hmatch.isCall
  obtain ⟨parent, vars, isCall⟩ := scope
  obtain ⟨parent', vars', isCall'⟩ := scope'
  dsimp only at hvars hparents hcall
  subst hvars
  subst hcall
  cases hparents with
  | none => rfl
  | some hlinked => rw [(alone_linked hlinked.2.2).2]

theorem Holds.alone_isClosed (h : (alone events observer observer' fits).Holds p) :
    p.left.IsClosed := by
  have hscopes {i : Nat} {scope : Scope} (hscope : p.left.scopes[i]? = some scope) :
      (alone events observer observer' fits).ScopesMatch p ⟨i⟩ ⟨i⟩ scope scope := by
    obtain ⟨hi, -⟩ := Array.getElem?_eq_some_iff.1 hscope
    have hopened : (alone events observer observer' fits).Opened p ⟨i⟩ ⟨i⟩ := alone_opened hi
    obtain ⟨scope₁, scope₂, hmatch⟩ := h.opened hopened
    cases hmatch.left.symm.trans hscope
    have hright := hmatch.right
    rw [h.alone_scopes] at hright
    cases hright.symm.trans hscope
    exact hmatch
  refine ⟨h.serial, fun hscope => (hscopes hscope).vars.mono (alone_within p),
    fun hscope hparent => ?_⟩
  have hparents := (hscopes hscope).parents
  rw [hparent] at hparents
  cases hparents with
  | some hlinked => exact hlinked.1

theorem Holds.alone_isClosed_right (h : (alone events observer observer' fits).Holds p) :
    p.right.IsClosed :=
  h.alone_isClosed.of_same h.alone_scopes h.shifted

/-- In a closed world a term may be evaluated in any scope. -/
theorem momentsMatch_alone
    (fits : observer.failure? = none ∨ observer'.failure? = observer.failure?) (h : w.IsClosed)
    (hs : s.index < w.scopes.size) (n : Nat) (t : Term) :
    (alone w.events.toList observer observer' fits).MomentsMatch
      (.term n s t (w.observing observer)) (.term n s t (w.observing observer')) :=
  .term (.inl rfl) (holds_alone h)
    ⟨alone_serves (p := ⟨w.observing observer, w.observing observer'⟩) (h.of_same rfl rfl) rfl hs t,
      .inl (alone_opened hs)⟩

end

end Start

/-! ## Evaluations in closed worlds -/

namespace World

variable {w : World} {s : ScopeId} {n : Nat} {b : Moment}

/-- The start from which a run is compared with itself. -/
abbrev mirror (w : World) : Start :=
  .alone w.events.toList w.observer w.observer (.inr rfl)

theorem IsClosed.holds (h : w.IsClosed) : w.mirror.Holds ⟨w, w⟩ :=
  Start.holds_alone h

/-- What a name means in a closed world exists there. -/
theorem IsClosed.lookup? (h : w.IsClosed) (s : ScopeId) (name : String) :
    Option.Rel (Value.Matches w.own) (w.lookup? s name) (w.lookup? s name) := by
  by_cases hs : s.index < w.scopes.size
  · have hsees : w.mirror.Sees ⟨w, w⟩ name s s := Start.alone_sees h rfl hs name
    exact optionRel_imp (h.holds.lookup? hsees) fun _ _ hv => hv.mono (Start.alone_within ⟨w, w⟩)
  · rw [World.lookup?, Array.getElem?_eq_none (by omega)]
    exact .none

/-- An evaluation in a closed world corresponds to itself. -/
theorem IsClosed.together (h : w.IsClosed) (hs : s.index < w.scopes.size) (n : Nat) (t : Term) :
    w.mirror.Together ⟨w, w⟩ w.mirror.value ((evaluate (callAt n) s t).run.run w)
      ((evaluate (callAt n) s t).run.run w) := by
  have hmatch : w.mirror.MomentsMatch (.term n s t w) (.term n s t w) :=
    Start.momentsMatch_alone (.inr rfl) h hs n t
  rcases hmatch.run with htogether | ⟨e, -, hquits⟩
  · exact htogether
  · exact (hquits.eq_tooDeep rfl).1.elim

/-- Whatever is evaluated in a closed world comes to closed worlds only and ends in one. -/
theorem IsClosed.leadsTo {t : Term} (h : w.IsClosed) (hs : s.index < w.scopes.size)
    (hleads : (Moment.term n s t w).LeadsTo b) : b.world.IsClosed ∧ b.run.2.IsClosed := by
  have hmatch : w.mirror.MomentsMatch (.term n s t w) (.term n s t w) :=
    Start.momentsMatch_alone (.inr rfl) h hs n t
  obtain ⟨c, -, hc⟩ := hmatch.leadsTo hleads
  refine ⟨hc.holds.alone_isClosed_right, ?_⟩
  rcases hc.run with htogether | ⟨e, -, hquits⟩
  · exact htogether.holds.alone_isClosed_right
  · exact (hquits.eq_tooDeep rfl).1.elim

end World

/-! ## Sessions -/

namespace Session

variable {s s' s₀ : Session} {a b : Moment}

/-- A session in whose world nothing is missing. -/
structure IsClosed (s : Session) : Prop where
  world : s.world.IsClosed
  scope : s.scope.index < s.world.scopes.size

theorem isClosed_ofWorld {w : World} (h : w.IsClosed) : (ofWorld w).IsClosed :=
  ⟨h.openRoot, by simp [ofWorld, World.openRoot]⟩

theorem isClosed_start (legacy : Bool) (observer : Observer) :
    (start legacy observer).IsClosed :=
  isClosed_ofWorld (World.isClosed_new legacy observer)

theorem IsClosed.of_same {w : World} (h : s.IsClosed) (hscopes : w.scopes = s.world.scopes)
    (hserial : w.nextSerial = s.world.nextSerial) : IsClosed ⟨w, s.scope⟩ :=
  ⟨h.world.of_same hscopes hserial, hscopes ▸ h.scope⟩

/-- Whatever is evaluated in a closed session comes to closed worlds only. -/
theorem IsClosed.leadsTo (h : s.IsClosed) (hevaluates : s.Evaluates a s') (hleads : a.LeadsTo b) :
    b.world.IsClosed ∧ b.run.2.IsClosed := by
  cases hevaluates with
  | evaluated => exact h.world.leadsTo h.scope hleads
  | @ran code =>
      have hstarted : (s.world.note (.started code.length)).IsClosed := h.world.of_same rfl rfl
      exact hstarted.leadsTo h.scope hleads

theorem IsClosed.evaluateText (h : s.IsClosed) (code : String) :
    (s.evaluateText code).2.IsClosed := by
  cases hread : Program.read code.toList with
  | error e =>
      unfold Session.evaluateText
      rw [hread]
      exact h
  | ok t =>
      have hevaluates : s.Evaluates _ _ := .evaluated hread
      rw [evaluateText_of_read s hread]
      have hlater := (Moment.term callBound s.scope t s.world).world_extends.size_le
      exact ⟨(h.leadsTo hevaluates .refl).2, Nat.lt_of_lt_of_le h.scope hlater⟩

theorem IsClosed.run (h : s.IsClosed) (code : String) : (s.run code).2.IsClosed := by
  have hstarted : IsClosed ⟨s.world.note (.started code.length), s.scope⟩ := h.of_same rfl rfl
  have hrun := hstarted.evaluateText code
  unfold Session.run
  dsimp only
  split
  · exact hrun.of_same rfl rfl
  · exact hrun

theorem Reaches.isClosed (h : s₀.Reaches s) (hs₀ : s₀.IsClosed) : s.IsClosed := by
  induction h with
  | here => exact hs₀
  | evaluated _ code ih => exact ih.evaluateText code
  | ran _ code ih => exact ih.run code
  | legacy _ _ ih | cleared _ ih => exact ih.of_same rfl rfl
  | reset _ ih => exact isClosed_ofWorld ih.world

end Session

/-! ## Worlds in which a script can be -/

/-- A world in which a script can be: that of a session after any steps since its start, or one with
which something begins or ends in the course of evaluating a text there. -/
inductive World.Occurs : World → Prop where
  | between {legacy : Bool} {observer : Observer} {session : Session}
      (hsession : (Session.start legacy observer).Reaches session) : Occurs session.world
  | before {legacy : Bool} {observer : Observer} {session after : Session} {a b : Moment}
      (hsession : (Session.start legacy observer).Reaches session)
      (hevaluates : session.Evaluates a after) (hleads : a.LeadsTo b) : Occurs b.world
  | behind {legacy : Bool} {observer : Observer} {session after : Session} {a b : Moment}
      (hsession : (Session.start legacy observer).Reaches session)
      (hevaluates : session.Evaluates a after) (hleads : a.LeadsTo b) : Occurs b.run.2

namespace World.Occurs

variable {w : World}

theorem isClosed (h : w.Occurs) : w.IsClosed := by
  have hstart {legacy : Bool} {observer : Observer} {session : Session}
      (hsession : (Session.start legacy observer).Reaches session) : session.IsClosed :=
    hsession.isClosed (Session.isClosed_start legacy observer)
  cases h with
  | between hsession => exact (hstart hsession).world
  | before hsession hevaluates hleads => exact ((hstart hsession).leadsTo hevaluates hleads).1
  | behind hsession hevaluates hleads => exact ((hstart hsession).leadsTo hevaluates hleads).2

theorem isSound (h : w.Occurs) : w.IsSound := by
  have hstart {legacy : Bool} {observer : Observer} {session : Session}
      (hsession : (Session.start legacy observer).Reaches session) : session.IsSound :=
    hsession.isSound (Session.isSound_start legacy observer)
  cases h with
  | between hsession => exact (hstart hsession).world
  | before hsession hevaluates hleads =>
      exact (hleads.isSound (hevaluates.isSound (hstart hsession))).world
  | behind hsession hevaluates hleads =>
      exact (hleads.isSound (hevaluates.isSound (hstart hsession))).run.1

end World.Occurs

end VariantScript
