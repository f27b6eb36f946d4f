import VariantScript.Proofs.Evaluation.Returns
import VariantScript.Proofs.SideBySide.Values

/-!
# Worlds of two runs side by side

Two runs start from worlds that need not be the same.  From there on they take new identities and
open new scopes in step, so that the new ones of both runs correspond one by one: a new identity or
scope of one run has a counterpart in the other, so many further on.  Scopes that were there at the
start stand for each other as far as the start says, and as far as a name is seen alike from both.

`Start.Holds` says that two worlds correspond; new identities, scopes, names and events keep it.
-/

namespace VariantScript

open Syntax

/-! ## Names in terms -/

/-- A name occurs in a term, as one that is looked up. -/
def Syntax.Term.Mentions (t : Term) (name : String) : Prop :=
  ∃ pos spelling, t.Has (.node pos (.reference spelling)) ∧ spelling.text = name

theorem Syntax.Term.Mentions.of_part {t u : Term} {name : String} (hu : u ∈ t.form.parts)
    (h : u.Mentions name) : t.Mentions name := by
  obtain ⟨pos, spelling, hhas, hname⟩ := h
  exact ⟨pos, spelling, .head hu hhas, hname⟩

theorem Syntax.Term.mentions_iff {pos : Option Position} {form : Form} {name : String} :
    (Term.node pos form).Mentions name ↔
      (∃ spelling, form = .reference spelling ∧ spelling.text = name) ∨
        ∃ u ∈ form.parts, u.Mentions name := by
  constructor
  · rintro ⟨pos', spelling, hhas, hname⟩
    rcases Relation.ReflTransGen.cases_head hhas with hsame | ⟨u, hu, hhas⟩
    · cases hsame
      exact .inl ⟨spelling, rfl, hname⟩
    · exact .inr ⟨u, hu, pos', spelling, hhas, hname⟩
  · rintro (⟨spelling, rfl, hname⟩ | ⟨u, hu, h⟩)
    · exact ⟨pos, spelling, .refl, hname⟩
    · exact .of_part hu h

/-! ## Worlds that change -/

/-- The text of the failure with which an observer answers. -/
def Observer.failure? : Observer → Option String
  | .failing text => some text
  | _ => none

/-- What is told about a value that is shown to an observer. -/
def Observer.event : Observer → Value → Event
  | .absent => .logged
  | _ => .observed

namespace World

/-- The world with some identities taken. -/
def spend (w : World) (count : Nat) : World :=
  { w with nextSerial := w.nextSerial + count }

/-- The world with one more scope. -/
def push (w : World) (scope : Scope) : World :=
  { w with scopes := w.scopes.push scope }

/-- The world with one more name in a scope. -/
def bind (w : World) (s : ScopeId) (name : String) (v : Value) : World :=
  { w with scopes := w.scopes.modify s.index fun scope =>
      { scope with vars := scope.vars ++ [(name, v)] } }

/-- What a name means in a scope depends on this scope and older ones only. -/
theorem lookup?_congr {w w' : World} {s : ScopeId}
    (h : ∀ i ≤ s.index, w'.scopes[i]? = w.scopes[i]?) (name : String) :
    w'.lookup? s name = w.lookup? s name := by
  induction hindex : s.index using Nat.strongRecOn generalizing s with
  | ind n ih =>
      rw [lookup?, lookup?, h _ (Nat.le_refl _)]
      cases w.scopes[s.index]? with
      | none => rfl
      | some scope =>
          dsimp only
          cases scope.vars.get? name with
          | some v => rfl
          | none =>
              cases scope.parent with
              | none => rfl
              | some parent =>
                  dsimp only
                  split
                  · rename_i hlt
                    exact ih _ (hindex ▸ hlt) (fun i hi => h i (by omega)) rfl
                  · rfl

/-- A name means what it does in the scope itself or else in the scope around it. -/
theorem lookup?_of_scope {w : World} {s : ScopeId} {scope : Scope}
    (hscope : w.scopes[s.index]? = some scope) (name : String) :
    w.lookup? s name = (scope.vars.get? name).or
      (match scope.parent with
        | some parent => if parent.index < s.index then w.lookup? parent name else none
        | none => none) := by
  rw [lookup?, hscope]
  dsimp only
  cases scope.vars.get? name <;> rfl

theorem Extends.size_le {w w' : World} (h : w.Extends w') : w.scopes.size ≤ w'.scopes.size := by
  by_contra hlt
  have hlast : w'.scopes.size < w.scopes.size := by omega
  obtain ⟨scope', hscope', -⟩ := h _ _ (Array.getElem?_eq_getElem hlast)
  have := (Array.getElem?_eq_some_iff.1 hscope').1
  omega

theorem isInCall_push {w : World} {o : ScopeId} (ho : o.index < w.scopes.size) {isCall : Bool} :
    (w.push ⟨some o, [], isCall⟩).isInCall ⟨w.scopes.size⟩ = (isCall || w.isInCall o) := by
  have hpushed : (w.push ⟨some o, [], isCall⟩).isInCall ⟨w.scopes.size⟩ = _ := isInCall_pushed rfl
  rw [hpushed]
  dsimp only
  rw [if_pos ho]

theorem extends_bind (w : World) (s : ScopeId) (name : String) (v : Value) :
    w.Extends (w.bind s name v) := by
  have hgains : w.Gains s [name] (fun _ => True) (w.bind s name v) := .defined s name v
  exact hgains.toExtends

end World

/-! ## Starts -/

/-- Where two runs start from.  Identities from `serial` on and scopes from `left` and `right` on are
new; `old` says which of the others stand for each other and `agree` under which names they have
corresponding values. -/
structure Start where
  serial : Nat
  shift : Nat
  left : Nat
  right : Nat
  old : ScopeId → ScopeId → Prop
  agree : ScopeId → ScopeId → String → Prop
  before : List Event
  before' : List Event
  observer : Observer
  observer' : Observer
  /-- Whether calls may nest less deeply in the second run. -/
  lax : Prop
  firstFree_le : Identity.firstFree ≤ serial
  old_lt {s s' : ScopeId} : old s s' → s.index < left ∧ s'.index < right
  /-- If the first observer fails, the second fails in the same way. -/
  fits : observer.failure? = none ∨ observer'.failure? = observer.failure?

/-- The worlds of two runs. -/
structure Pair where
  left : World
  right : World

/-- Worlds at a later point of both runs. -/
structure Pair.Before (p q : Pair) : Prop where
  left : p.left.Extends q.left
  right : p.right.Extends q.right
  serial : p.left.nextSerial ≤ q.left.nextSerial

namespace Pair.Before

variable {p q r : Pair}

theorem refl (p : Pair) : p.Before p :=
  ⟨.refl _, .refl _, Nat.le_refl _⟩

theorem trans (h : p.Before q) (h' : q.Before r) : p.Before r :=
  ⟨h.left.trans h'.left, h.right.trans h'.right, Nat.le_trans h.serial h'.serial⟩

end Pair.Before

namespace Start

variable (b : Start) (p : Pair)

/-- The identity that stands for one of the first run. -/
def rename (i : Identity) : Identity :=
  if i.serial < b.serial then i else ⟨i.serial + b.shift⟩

/-- Scopes that both runs opened at the same point. -/
structure Opened (s s' : ScopeId) : Prop where
  new : b.left ≤ s.index
  lt : s.index < p.left.scopes.size
  aligned : s'.index + b.left = s.index + b.right

/-- Scopes that stand for each other. -/
def Linked (s s' : ScopeId) : Prop :=
  b.old s s' ∨ b.Opened p s s'

/-- A name is looked up alike in two scopes: the search ends in new scopes, or in old ones that agree
on the name. -/
inductive Sees (name : String) : ScopeId → ScopeId → Prop where
  | settled {s s' : ScopeId} (hold : b.old s s') (hagree : b.agree s s' name) : Sees name s s'
  | outermost {s s' : ScopeId} {scope : Scope} (hopened : b.Opened p s s')
      (hscope : p.left.scopes[s.index]? = some scope) (hparent : scope.parent = none) :
      Sees name s s'
  | inside {s s' q q' : ScopeId} {scope scope' : Scope} (hopened : b.Opened p s s')
      (hscope : p.left.scopes[s.index]? = some scope)
      (hscope' : p.right.scopes[s'.index]? = some scope') (hparent : scope.parent = some q)
      (hparent' : scope'.parent = some q') (h : Sees name q q') : Sees name s s'

/-- The scopes of a function with some body stand for each other, and look up alike what the body
mentions. -/
structure Serves (body : Term) (s s' : ScopeId) : Prop where
  linked : b.Linked p s s'
  sees {name : String} (h : body.Mentions name) : b.Sees p name s s'

/-- How identities and scopes of two worlds correspond. -/
def matching : Matching where
  ids i j := i.serial < p.left.nextSerial ∧ j = b.rename i
  scopes body s s' := b.Serves p body s s'

/-- Scopes around two scopes. -/
def ParentsMatch (s s' : ScopeId) : Option ScopeId → Option ScopeId → Prop :=
  Option.Rel fun q q' => q.index < s.index ∧ q'.index < s'.index ∧ b.Linked p q q'

/-- Two scopes have corresponding names in the same order. -/
structure ScopesMatch (s s' : ScopeId) (scope scope' : Scope) : Prop where
  left : p.left.scopes[s.index]? = some scope
  right : p.right.scopes[s'.index]? = some scope'
  isCall : scope'.isCall = scope.isCall
  vars : scope.vars.Matches (b.matching p) scope'.vars
  parents : b.ParentsMatch p s s' scope.parent scope'.parent
  isInCall : p.right.isInCall s' = p.left.isInCall s

/-- Corresponding values have been shown since the start; none if only the second observer fails. -/
structure EventsMatch (shown shown' : List Value) : Prop where
  left : p.left.events.toList = b.before ++ shown.map b.observer.event
  right : p.right.events.toList = b.before' ++ shown'.map b.observer'.event
  values : List.Forall₂ (Value.Matches (b.matching p)) shown shown'
  quiet : b.observer'.failure? ≠ b.observer.failure? → shown = []

/-- Two worlds correspond. -/
structure Holds : Prop where
  legacy : p.right.legacy = p.left.legacy
  observer : p.left.observer = b.observer
  observer' : p.right.observer = b.observer'
  serial : b.serial ≤ p.left.nextSerial
  shifted : p.right.nextSerial = p.left.nextSerial + b.shift
  size : b.left ≤ p.left.scopes.size
  aligned : p.right.scopes.size + b.left = p.left.scopes.size + b.right
  opened {s s' : ScopeId} (h : b.Opened p s s') :
    ∃ scope scope', b.ScopesMatch p s s' scope scope'
  settled {s s' : ScopeId} {name : String} (hold : b.old s s') (hagree : b.agree s s' name) :
    Option.Rel (Value.Matches (b.matching p)) (p.left.lookup? s name) (p.right.lookup? s' name)
  events : ∃ shown shown', b.EventsMatch p shown shown'

variable {b p} {q : Pair} {s s' t t' : ScopeId} {name : String}

/-! ## Identities -/

theorem rename_old {i : Identity} (h : i.serial < b.serial) : b.rename i = i :=
  if_pos h

theorem rename_new {i : Identity} (h : b.serial ≤ i.serial) :
    b.rename i = ⟨i.serial + b.shift⟩ :=
  if_neg (by omega)

theorem rename_injective {i j : Identity} (h : b.rename i = b.rename j) : i = j := by
  unfold rename at h
  have hserial : i.serial = j.serial := by
    have hserials := congrArg Identity.serial h
    split at hserials <;> split at hserials <;> first | omega | (dsimp only at hserials; omega)
  cases i
  cases j
  exact congrArg Identity.mk hserial

theorem oneToOne (b : Start) (p : Pair) : (b.matching p).OneToOne :=
  ⟨fun h h' => h.2.trans h'.2.symm, fun h h' => rename_injective (h.2.symm.trans h'.2)⟩

theorem Holds.fixes (h : b.Holds p) : (b.matching p).Fixes := fun i hi =>
  have hserial := b.firstFree_le
  ⟨by have := h.serial; omega, (rename_old (by omega)).symm⟩

/-! ## Later worlds -/

theorem Opened.mono (h : b.Opened p s s') (hle : p.Before q) : b.Opened q s s' :=
  ⟨h.new, Nat.lt_of_lt_of_le h.lt hle.left.size_le, h.aligned⟩

theorem Linked.mono (h : b.Linked p s s') (hle : p.Before q) : b.Linked q s s' :=
  h.imp_right fun h => h.mono hle

theorem Sees.mono (h : b.Sees p name s s') (hle : p.Before q) : b.Sees q name s s' := by
  induction h with
  | settled hold hagree => exact .settled hold hagree
  | outermost hopened hscope hparent =>
      obtain ⟨later, hlater, hext⟩ := hle.left _ _ hscope
      exact .outermost (hopened.mono hle) hlater (hext.parent.trans hparent)
  | inside hopened hscope hscope' hparent hparent' _ ih =>
      obtain ⟨later, hlater, hext⟩ := hle.left _ _ hscope
      obtain ⟨later', hlater', hext'⟩ := hle.right _ _ hscope'
      exact .inside (hopened.mono hle) hlater hlater' (hext.parent.trans hparent)
        (hext'.parent.trans hparent') ih

theorem Serves.mono {body : Term} (h : b.Serves p body s s') (hle : p.Before q) :
    b.Serves q body s s' :=
  ⟨h.linked.mono hle, fun hname => (h.sees hname).mono hle⟩

theorem within (hle : p.Before q) : (b.matching p).Within (b.matching q) :=
  ⟨fun h => ⟨Nat.lt_of_lt_of_le h.1 hle.serial, h.2⟩, fun h => h.mono hle⟩

theorem ParentsMatch.mono {o o' : Option ScopeId} (h : b.ParentsMatch p s s' o o')
    (hle : p.Before q) : b.ParentsMatch q s s' o o' :=
  optionRel_imp h fun _ _ h => ⟨h.1, h.2.1, h.2.2.mono hle⟩

theorem ScopesMatch.mono {scope scope' : Scope} (h : b.ScopesMatch p s s' scope scope')
    (hle : p.Before q) (hleft : q.left.scopes[s.index]? = p.left.scopes[s.index]?)
    (hright : q.right.scopes[s'.index]? = p.right.scopes[s'.index]?) :
    b.ScopesMatch q s s' scope scope' where
  left := hleft.trans h.left
  right := hright.trans h.right
  isCall := h.isCall
  vars := h.vars.mono (within hle)
  parents := h.parents.mono hle
  isInCall := by
    rw [hle.left.isInCall (Array.getElem?_eq_some_iff.1 h.left).1,
      hle.right.isInCall (Array.getElem?_eq_some_iff.1 h.right).1]
    exact h.isInCall

theorem EventsMatch.mono {shown shown' : List Value} (h : b.EventsMatch p shown shown')
    (hle : p.Before q) (hleft : q.left.events = p.left.events)
    (hright : q.right.events = p.right.events) : b.EventsMatch q shown shown' :=
  ⟨by rw [hleft]; exact h.left, by rw [hright]; exact h.right,
    Value.Matches.allMono h.values (within hle), h.quiet⟩

/-- What has been shown since the start corresponds, also in a wider way. -/
theorem Holds.shown {m : Matching} (h : b.Holds p) (hle : (b.matching p).Within m) :
    ∃ shown shown' : List Value,
      p.left.events.toList = b.before ++ shown.map b.observer.event ∧
      p.right.events.toList = b.before' ++ shown'.map b.observer'.event ∧
      List.Forall₂ (Value.Matches m) shown shown' := by
  obtain ⟨shown, shown', hshown⟩ := h.events
  exact ⟨shown, shown', hshown.left, hshown.right, Value.Matches.allMono hshown.values hle⟩

/-! ## Names -/

/-- Scopes that stand for each other exist. -/
theorem Holds.linked_lt (h : b.Holds p) (hs : b.Linked p s s') :
    s.index < p.left.scopes.size ∧ s'.index < p.right.scopes.size := by
  have hsize := h.size
  have haligned := h.aligned
  rcases hs with hold | hopened
  · have := b.old_lt hold
    omega
  · have hlt := hopened.lt
    have := hopened.aligned
    omega

/-- A name that is seen alike has corresponding values. -/
theorem Holds.lookup? (h : b.Holds p) (hs : b.Sees p name s s') :
    Option.Rel (Value.Matches (b.matching p)) (p.left.lookup? s name) (p.right.lookup? s' name) := by
  have hscopes {s s' : ScopeId} (hopened : b.Opened p s s') {scope : Scope}
      (hscope : p.left.scopes[s.index]? = some scope) :
      ∃ scope', b.ScopesMatch p s s' scope scope' := by
    obtain ⟨scope₁, scope', hmatch⟩ := h.opened hopened
    cases hmatch.left.symm.trans hscope
    exact ⟨scope', hmatch⟩
  induction hs with
  | settled hold hagree => exact h.settled hold hagree
  | @outermost s s' scope hopened hscope hparent =>
      obtain ⟨scope', hmatch⟩ := hscopes hopened hscope
      have hvalue := hmatch.vars.get? name
      have hparents := hmatch.parents
      rw [World.lookup?_of_scope hmatch.left, World.lookup?_of_scope hmatch.right]
      generalize scope.parent = parent, scope'.parent = parent' at hparent hparents
      subst hparent
      generalize scope.vars.get? name = left, scope'.vars.get? name = right at hvalue
      cases hparents
      cases hvalue with
      | none => exact .none
      | some hv => exact .some hv
  | @inside s s' q q' scope scope' hopened hscope hscope' hparent hparent' _ ih =>
      obtain ⟨scope₁, hmatch⟩ := hscopes hopened hscope
      cases hmatch.right.symm.trans hscope'
      have hvalue := hmatch.vars.get? name
      have hparents := hmatch.parents
      rw [World.lookup?_of_scope hscope, World.lookup?_of_scope hscope', hparent, hparent']
      rw [hparent, hparent'] at hparents
      generalize scope.vars.get? name = left, scope'.vars.get? name = right at hvalue
      cases hvalue with
      | some hv => exact .some hv
      | none =>
          cases hparents with
          | some hlt =>
              simpa only [Option.none_or, if_pos hlt.1, if_pos hlt.2.1] using ih

/-! ## Steps of both worlds -/

/-- What is left to show for later worlds that keep the old scopes. -/
theorem Holds.later (h : b.Holds p) (hle : p.Before q)
    (hlegacy : q.right.legacy = q.left.legacy) (hobserver : q.left.observer = p.left.observer)
    (hobserver' : q.right.observer = p.right.observer)
    (hshifted : q.right.nextSerial = q.left.nextSerial + b.shift)
    (haligned : q.right.scopes.size + b.left = q.left.scopes.size + b.right)
    (hleft : ∀ i < b.left, q.left.scopes[i]? = p.left.scopes[i]?)
    (hright : ∀ i < b.right, q.right.scopes[i]? = p.right.scopes[i]?)
    (hopened : ∀ {s s'}, b.Opened q s s' → ∃ scope scope', b.ScopesMatch q s s' scope scope')
    (hevents : ∃ shown shown', b.EventsMatch q shown shown') : b.Holds q where
  legacy := hlegacy
  observer := hobserver.trans h.observer
  observer' := hobserver'.trans h.observer'
  serial := Nat.le_trans h.serial hle.serial
  shifted := hshifted
  size := Nat.le_trans h.size hle.left.size_le
  aligned := haligned
  opened := hopened
  settled {s s' name} hold hagree := by
    have hlt := b.old_lt hold
    rw [World.lookup?_congr fun i hi => hleft i (by omega),
      World.lookup?_congr fun i hi => hright i (by omega)]
    exact optionRel_imp (h.settled hold hagree) fun _ _ hv => hv.mono (within hle)
  events := hevents

/-- Nothing new has been shown. -/
theorem Holds.eventsLater (h : b.Holds p) (hle : p.Before q)
    (hleft : q.left.events = p.left.events) (hright : q.right.events = p.right.events) :
    ∃ shown shown', b.EventsMatch q shown shown' := by
  obtain ⟨shown, shown', hshown⟩ := h.events
  exact ⟨shown, shown', hshown.mono hle hleft hright⟩

/-- Later worlds with the same scopes. -/
theorem Holds.of_scopes (h : b.Holds p) (hle : p.Before q)
    (hleft : q.left.scopes = p.left.scopes) (hright : q.right.scopes = p.right.scopes)
    (hlegacy : q.right.legacy = q.left.legacy) (hobserver : q.left.observer = p.left.observer)
    (hobserver' : q.right.observer = p.right.observer)
    (hshifted : q.right.nextSerial = q.left.nextSerial + b.shift)
    (hevents : ∃ shown shown', b.EventsMatch q shown shown') : b.Holds q := by
  refine h.later hle hlegacy hobserver hobserver' hshifted ?_ (fun _ _ => by rw [hleft])
    (fun _ _ => by rw [hright]) (fun hopened => ?_) hevents
  · rw [hleft, hright]
    exact h.aligned
  · obtain ⟨scope, scope', hmatch⟩ :=
      h.opened ⟨hopened.new, hleft ▸ hopened.lt, hopened.aligned⟩
    exact ⟨scope, scope', hmatch.mono hle (by rw [hleft]) (by rw [hright])⟩

theorem Holds.spend (h : b.Holds p) (count : Nat) :
    p.Before ⟨p.left.spend count, p.right.spend count⟩ ∧
      b.Holds ⟨p.left.spend count, p.right.spend count⟩ := by
  have hle : p.Before ⟨p.left.spend count, p.right.spend count⟩ :=
    ⟨.of_scopes rfl, .of_scopes rfl, Nat.le_add_right _ _⟩
  refine ⟨hle, h.of_scopes hle rfl rfl h.legacy rfl rfl ?_ (h.eventsLater hle rfl rfl)⟩
  have := h.shifted
  simp only [World.spend]
  omega

/-- An identity taken at the same point of both runs. -/
theorem Holds.fresh (h : b.Holds p) {i count : Nat} (hi : i < count) :
    (b.matching ⟨p.left.spend count, p.right.spend count⟩).ids ⟨p.left.nextSerial + i⟩
      ⟨p.right.nextSerial + i⟩ := by
  have hserial := h.serial
  refine ⟨Nat.add_lt_add_left hi _, ?_⟩
  rw [rename_new (by dsimp only; omega), h.shifted]
  exact congrArg Identity.mk (by dsimp only; omega)

theorem Holds.note (h : b.Holds p) {v v' : Value} (hv : v.Matches (b.matching p) v')
    (hfails : b.observer'.failure? = b.observer.failure?) :
    p.Before ⟨p.left.note (b.observer.event v), p.right.note (b.observer'.event v')⟩ ∧
      b.Holds ⟨p.left.note (b.observer.event v), p.right.note (b.observer'.event v')⟩ := by
  have hle : p.Before ⟨p.left.note (b.observer.event v), p.right.note (b.observer'.event v')⟩ :=
    ⟨.of_scopes rfl, .of_scopes rfl, Nat.le_refl _⟩
  refine ⟨hle, h.of_scopes hle rfl rfl h.legacy rfl rfl h.shifted ?_⟩
  obtain ⟨shown, shown', hshown⟩ := h.events
  refine ⟨shown ++ [v], shown' ++ [v'], ?_, ?_, ?_, fun hne => absurd hfails hne⟩
  · simp [World.note, hshown.left]
  · simp [World.note, hshown.right]
  · exact List.rel_append (Value.Matches.allMono hshown.values (within hle))
      (.cons (hv.mono (within hle)) .nil)

/-- A scope that both runs open inside scopes that stand for each other.  It lies in a call in both
or in neither. -/
theorem Holds.push (h : b.Holds p) {o o' : ScopeId} (ho : b.Linked p o o') {isCall : Bool}
    (hcall : isCall = true ∨ p.right.isInCall o' = p.left.isInCall o) :
    p.Before ⟨p.left.push ⟨some o, [], isCall⟩, p.right.push ⟨some o', [], isCall⟩⟩ ∧
      b.Holds ⟨p.left.push ⟨some o, [], isCall⟩, p.right.push ⟨some o', [], isCall⟩⟩ ∧
      b.Opened ⟨p.left.push ⟨some o, [], isCall⟩, p.right.push ⟨some o', [], isCall⟩⟩
        ⟨p.left.scopes.size⟩ ⟨p.right.scopes.size⟩ := by
  have hle : p.Before ⟨p.left.push ⟨some o, [], isCall⟩, p.right.push ⟨some o', [], isCall⟩⟩ :=
    ⟨.pushed rfl, .pushed rfl, Nat.le_refl _⟩
  have hsize := h.size
  have haligned := h.aligned
  obtain ⟨hlt, hlt'⟩ := h.linked_lt ho
  have hold {w : World} {i : Nat} {scope : Scope} (hi : i < w.scopes.size) :
      (w.push scope).scopes[i]? = w.scopes[i]? := by
    simp only [World.push, Array.getElem?_push, if_neg (Nat.ne_of_lt hi)]
  have hinner : b.Opened ⟨p.left.push ⟨some o, [], isCall⟩, p.right.push ⟨some o', [], isCall⟩⟩
      ⟨p.left.scopes.size⟩ ⟨p.right.scopes.size⟩ :=
    ⟨hsize, by simp [World.push], haligned⟩
  refine ⟨hle, h.later hle h.legacy rfl rfl h.shifted ?_ (fun i hi => hold (by omega))
    (fun i hi => hold (by omega)) (fun {s s'} hopened => ?_) (h.eventsLater hle rfl rfl), hinner⟩
  · simp only [World.push, Array.size_push]
    omega
  · have hs := hopened.aligned
    by_cases hnew : s.index < p.left.scopes.size
    · obtain ⟨scope, scope', hmatch⟩ := h.opened ⟨hopened.new, hnew, hs⟩
      exact ⟨scope, scope', hmatch.mono hle (hold hnew) (hold (by omega))⟩
    · -- The new scopes themselves.
      have hlast := hopened.lt
      simp only [World.push, Array.size_push] at hlast
      obtain ⟨i⟩ := s
      obtain ⟨i'⟩ := s'
      dsimp only at hnew hlast hs
      obtain rfl : i = p.left.scopes.size := by omega
      obtain rfl : i' = p.right.scopes.size := by omega
      refine ⟨⟨some o, [], isCall⟩, ⟨some o', [], isCall⟩, by simp [World.push],
        by simp [World.push], rfl, .nil, .some ⟨hlt, hlt', ho.mono hle⟩, ?_⟩
      rw [World.isInCall_push hlt, World.isInCall_push hlt']
      rcases hcall with rfl | hcall
      · rfl
      · rw [hcall]

/-- A name that both runs define in new scopes. -/
theorem Holds.bind (h : b.Holds p) (hs : b.Opened p s s') (name : String) {v v' : Value}
    (hv : v.Matches (b.matching p) v') :
    p.Before ⟨p.left.bind s name v, p.right.bind s' name v'⟩ ∧
      b.Holds ⟨p.left.bind s name v, p.right.bind s' name v'⟩ := by
  have hle : p.Before ⟨p.left.bind s name v, p.right.bind s' name v'⟩ :=
    ⟨p.left.extends_bind s name v, p.right.extends_bind s' name v', Nat.le_refl _⟩
  have hother {w : World} {t : ScopeId} {u : Value} {i : Nat} (hi : t.index ≠ i) :
      (w.bind t name u).scopes[i]? = w.scopes[i]? := by
    simp only [World.bind, Array.getElem?_modify, if_neg hi]
  have hnew := hs.new
  have haligned := hs.aligned
  refine ⟨hle, h.later hle h.legacy rfl rfl h.shifted ?_ (fun i hi => hother (by omega))
    (fun i hi => hother (by omega)) (fun {t t'} hopened => ?_) (h.eventsLater hle rfl rfl)⟩
  · simpa only [World.bind, Array.size_modify] using h.aligned
  · have hlt : t.index < p.left.scopes.size := by
      simpa only [World.bind, Array.size_modify] using hopened.lt
    have ht := hopened.aligned
    obtain ⟨scope, scope', hmatch⟩ := h.opened ⟨hopened.new, hlt, ht⟩
    by_cases hown : s.index = t.index
    · have hown' : s'.index = t'.index := by omega
      obtain rfl : s = t := congrArg ScopeId.mk hown
      obtain rfl : s' = t' := congrArg ScopeId.mk hown'
      refine ⟨{ scope with vars := scope.vars ++ [(name, v)] },
        { scope' with vars := scope'.vars ++ [(name, v')] }, ?_, ?_, hmatch.isCall, ?_,
        hmatch.parents.mono hle, ?_⟩
      · simp [World.bind, Array.getElem?_modify, hmatch.left]
      · simp [World.bind, Array.getElem?_modify, hmatch.right]
      · exact List.rel_append (hmatch.vars.mono (within hle))
          (.cons ⟨rfl, hv.mono (within hle)⟩ .nil)
      · rw [hle.left.isInCall hlt, hle.right.isInCall (Array.getElem?_eq_some_iff.1 hmatch.right).1]
        exact hmatch.isInCall
    · exact ⟨scope, scope', hmatch.mono hle (hother hown) (hother (by omega))⟩

end Start

end VariantScript
