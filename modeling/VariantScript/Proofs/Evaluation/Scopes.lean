import VariantScript.Proofs.Evaluation.Course
import VariantScript.Proofs.Evaluation.Shape

/-!
# Scopes

What a text does to the scopes that it finds.  An expression, a block or a call changes none of them;
a declaration adds names to the scope that it stands in.  So a name that was bound stays bound to its
value, and the names that every script finds keep their meaning.
-/

namespace VariantScript

open Syntax Eval

/-! ## Parts of terms -/

namespace Syntax

/-- The value of a field. -/
def Field.value? : Field → Option Term
  | .mk _ _ value => some value
  | .broken _ => none

/-- The terms that a form is made of, bodies of functions included. -/
def Form.parts : Form → List Term
  | .program body | .block body => body
  | .declaration _ t | .returnValue t | .throwValue t | .functionDeclaration _ _ t
  | .expressionStatement t | .arrow _ t | .functionExpression _ t | .member t _ | .unary _ _ t =>
      [t]
  | .ifThen t u | .index t u | .binary _ _ t u | .compare _ _ t u | .logical _ t u => [t, u]
  | .ifThenElse t u v | .conditional t u v => [t, u, v]
  | .array items => items
  | .record fields => fields.filterMap Field.value?
  | .call callee args => callee :: args
  | .returnNothing | .number _ | .string _ | .truth _ | .reference _ | .illFormed _ => []

/-- A term that stands in another one, at any depth. -/
def Term.Has : Term → Term → Prop :=
  Relation.ReflTransGen fun t u => u ∈ t.form.parts

/-- Whether a form is one of an expression. -/
def Form.isExpression : Form → Bool
  | .number _ | .string _ | .truth _ | .reference _ | .array _ | .record _ | .arrow _ _
  | .functionExpression _ _ | .call _ _ | .member _ _ | .index _ _ | .unary _ _ _
  | .binary _ _ _ _ | .compare _ _ _ _ | .logical _ _ _ | .conditional _ _ _ => true
  | _ => false

variable {t u : Term} {role : Role}

/-- The parts of a term from a text come from it as well. -/
theorem Term.IsWritten.part (h : t.IsWritten role) (hu : u ∈ t.form.parts) :
    ∃ role', u.IsWritten role' := by
  cases h with
  | program hbody | block hbody => exact ⟨_, hbody u hu⟩
  | array hitems => exact ⟨_, hitems u hu⟩
  | record hfields =>
      obtain ⟨f, hf, hvalue⟩ := List.mem_filterMap.1 hu
      cases hfields f hf with
      | mk _ hwritten =>
          cases hvalue
          exact ⟨_, hwritten⟩
  | call hcallee hargs =>
      rcases List.mem_cons.1 hu with rfl | hu
      · exact ⟨_, hcallee⟩
      · exact ⟨_, hargs u hu⟩
  | returnNothing | number | string | truth | reference => cases hu
  | declaration _ h | returnValue h | throwValue h | functionDeclaration _ h | expressionStatement h
  | arrow _ _ h | functionExpression _ h | member h | unary _ h =>
      rw [List.mem_singleton.1 hu]
      exact ⟨_, h⟩
  | ifThen h h' | index h h' | binary _ h h' | compare _ h h' | logical h h' =>
      simp only [Form.parts, Term.form, List.mem_cons, List.not_mem_nil, or_false] at hu
      rcases hu with rfl | rfl
      · exact ⟨_, h⟩
      · exact ⟨_, h'⟩
  | ifThenElse h h' _ h'' | conditional h h' h'' =>
      simp only [Form.parts, Term.form, List.mem_cons, List.not_mem_nil, or_false] at hu
      rcases hu with rfl | rfl | rfl
      · exact ⟨_, h⟩
      · exact ⟨_, h'⟩
      · exact ⟨_, h''⟩

theorem Term.Has.isWritten (h : t.Has u) (ht : t.IsWritten role) : ∃ role', u.IsWritten role' := by
  induction h with
  | refl => exact ⟨role, ht⟩
  | tail _ hpart ih =>
      obtain ⟨role', hwritten⟩ := ih
      exact hwritten.part hpart

theorem Term.IsWritten.role_eq (h : t.IsWritten role) (hform : t.form.isExpression = true) :
    role = .expression := by
  cases h <;> first | rfl | cases hform

mutual

/-- An expression from a text defines no names in its scope. -/
theorem Term.IsWritten.defines {t : Term} (h : t.IsWritten .expression) : t.defines = [] := by
  cases h with
  | number | string | truth | reference | arrow | functionExpression => rfl
  | array hitems => exact Term.definesOfAll_eq_nil hitems
  | record hfields => exact Field.definesOfAll_eq_nil hfields
  | call hcallee hargs =>
      unfold Term.defines Form.defines
      rw [hcallee.defines, Term.definesOfAll_eq_nil hargs]
      rfl
  | member h | unary _ h =>
      unfold Term.defines Form.defines
      exact h.defines
  | index h h' | binary _ h h' | compare _ h h' | logical h h' =>
      unfold Term.defines Form.defines
      rw [h.defines, h'.defines]
      rfl
  | conditional h h' h'' =>
      unfold Term.defines Form.defines
      rw [h.defines, h'.defines, h''.defines]
      rfl
termination_by sizeOf t

theorem Term.definesOfAll_eq_nil {ts : List Term} (h : ∀ t ∈ ts, t.IsWritten .expression) :
    Term.definesOfAll ts = [] := by
  match ts with
  | [] => rfl
  | t :: ts =>
      unfold Term.definesOfAll
      rw [(h t (.head _)).defines, Term.definesOfAll_eq_nil fun u hu => h u (.tail _ hu)]
      rfl
termination_by sizeOf ts

theorem Field.definesOfAll_eq_nil {fs : List Field} (h : ∀ f ∈ fs, f.IsWritten) :
    Field.definesOfAll fs = [] := by
  match fs with
  | [] => rfl
  | .mk pos key value :: fs =>
      cases h _ (.head _) with
      | mk _ hvalue =>
          unfold Field.definesOfAll
          rw [hvalue.defines, Field.definesOfAll_eq_nil fun f hf => h f (.tail _ hf)]
          rfl
  | .broken b :: fs => cases h _ (.head _)
termination_by sizeOf fs

end

end Syntax

/-! ## Worlds -/

/-- A world in which every scope of another one is as it was there. -/
structure World.Keeps (w w' : World) : Prop where
  legacy : w'.legacy = w.legacy
  observer : w'.observer = w.observer
  scopes (i : Nat) (scope : Scope) (hscope : w.scopes[i]? = some scope) :
    w'.scopes[i]? = some scope

/-- A name is bound to a value in a scope itself. -/
def World.Binds (w : World) (s : ScopeId) (name : String) (v : Value) : Prop :=
  ∃ scope, w.scopes[s.index]? = some scope ∧ scope.vars.get? name = some v

namespace World

variable {w w' : World} {s : ScopeId} {name : String} {v : Value}

theorem Gains.keeps {own : ScopeId} {shown : Value → Prop} (h : w.Gains own [] shown w') :
    w.Keeps w' :=
  ⟨h.legacy, h.observer, fun _ _ hscope => h.kept hscope fun _ => rfl⟩

/-- A name stays bound to its value in every later world. -/
theorem Extends.binds (h : w.Extends w') (hbinds : w.Binds s name v) : w'.Binds s name v := by
  obtain ⟨scope, hscope, hget⟩ := hbinds
  obtain ⟨scope', hscope', hext⟩ := h _ _ hscope
  obtain ⟨added, hadded⟩ := hext.vars
  refine ⟨scope', hscope', ?_⟩
  rw [← hadded, Slots.get?, List.lookup_append]
  rw [Slots.get?] at hget
  rw [hget]
  rfl

theorem Binds.lookup? (h : w.Binds s name v) : w.lookup? s name = some v := by
  obtain ⟨scope, hscope, hget⟩ := h
  rw [World.lookup?, hscope]
  dsimp only
  rw [hget]

/-- A scope in which the names that every script finds have their meaning. -/
def HasIntrinsics (w : World) (s : ScopeId) (harness : Identity) : Prop :=
  w.lookup? s "harness" =
      some (.record harness (Builtin.all.map fun f => (f.name, .builtin f))) ∧
    w.lookup? s "equal" = some (.builtin .equal)

end World

/-! ## Sessions -/

namespace Session

/-- A session evaluates a text that can be read: the moment at which it starts to, and the session
afterwards. -/
inductive Evaluates (s : Session) : Moment → Session → Prop where
  | evaluated {code : String} {t : Term} (hread : Program.read code.toList = .ok t) :
      Evaluates s (.term callBound s.scope t s.world) (s.evaluateText code).2
  | ran {code : String} {t : Term} (hread : Program.read code.toList = .ok t) :
      Evaluates s (.term callBound s.scope t (s.world.note (.started code.length))) (s.run code).2

variable {s s' s₀ : Session} {a : Moment}

theorem evaluateText_of_read (s : Session) {code : String} {t : Term}
    (hread : Program.read code.toList = .ok t) :
    s.evaluateText code =
      ((Moment.term callBound s.scope t s.world).run.1.mapError Failure.ofStop,
        ⟨(Moment.term callBound s.scope t s.world).run.2, s.scope⟩) := by
  unfold evaluateText
  rw [hread]
  rfl

/-- Running a text notes how it starts and ends, and evaluates it in between. -/
theorem run_scopes (s : Session) (code : String) :
    (s.run code).2.world.scopes =
      (Session.evaluateText code ⟨s.world.note (.started code.length), s.scope⟩).2.world.scopes := by
  unfold Session.run
  dsimp only
  split <;> rfl

theorem Evaluates.before (h : s.Evaluates a s') : s.world.Extends a.world := by
  cases h with
  | evaluated => exact .refl _
  | ran => exact .of_scopes rfl

theorem Evaluates.after (h : s.Evaluates a s') : a.run.2.Extends s'.world := by
  cases h with
  | evaluated hread =>
      rw [evaluateText_of_read s hread]
      exact .refl _
  | ran hread =>
      refine .of_scopes ?_
      rw [run_scopes, evaluateText_of_read _ hread]

theorem evaluateText_extends (s : Session) (code : String) :
    s.world.Extends (s.evaluateText code).2.world := by
  cases hread : Program.read code.toList with
  | ok t =>
      have hevaluates : s.Evaluates _ _ := .evaluated hread
      exact (hevaluates.before.trans (Moment.world_extends _)).trans hevaluates.after
  | error e =>
      unfold evaluateText
      rw [hread]
      exact .refl _

/-- Whatever a session does, what it was is still there. -/
theorem Reaches.extends_world (h : s₀.Reaches s) : s₀.world.Extends s.world := by
  induction h with
  | here => exact .refl _
  | evaluated _ code ih => exact ih.trans (evaluateText_extends _ code)
  | @ran s _ code ih =>
      have hstarted : s.world.Extends (s.world.note (.started code.length)) := .of_scopes rfl
      have hevaluated := evaluateText_extends ⟨s.world.note (.started code.length), s.scope⟩ code
      exact ((ih.trans hstarted).trans hevaluated).trans (.of_scopes (run_scopes s code))
  | legacy | cleared => exact .trans ‹_› (.of_scopes rfl)
  | reset _ ih => exact ih.trans (.pushed rfl)

/-- The scope of a new session has the names that every script finds, and keeps them. -/
theorem hasIntrinsics_of_extends {w₀ w : World} (h : (ofWorld w₀).world.Extends w) :
    w.HasIntrinsics (ofWorld w₀).scope ⟨w₀.nextSerial⟩ := by
  have hroot : (ofWorld w₀).world.scopes[(ofWorld w₀).scope.index]? =
      some ⟨none, World.rootVars ⟨w₀.nextSerial⟩, false⟩ :=
    Array.getElem?_push_size
  have hbinds {name : String} {v : Value}
      (hget : (World.rootVars ⟨w₀.nextSerial⟩).get? name = some v) :
      w.Binds (ofWorld w₀).scope name v :=
    h.binds ⟨_, hroot, hget⟩
  exact ⟨(hbinds rfl).lookup?, (hbinds rfl).lookup?⟩

end Session

/-- What a text does to scopes.  In whatever world and scope, and however it ends, an expression or a
block of it leaves every scope that was there as it was, a declaration adds at most the names of its
pattern, in order, to the scope that it is evaluated in, and a call of whatever value adds names to
scopes of its own only.  So in a session nothing that was bound is ever changed or removed, neither
by later steps nor in the course of one, and `harness` and `equal` keep their meaning in the scope of
the session. -/
theorem evaluate_keeps_scopes {code : String} {t : Term}
    (hread : Program.read code.toList = .ok t) :
    (∀ u, t.Has u → u.form.isExpression ∨ u.isBlock → ∀ n s (w : World),
      w.Keeps ((evaluate (callAt n) s u).run.run w).2) ∧
    (∀ pos pattern value, t.Has (.node pos (.declaration pattern value)) → ∀ n s (w : World),
      w.Gains s pattern.names (fun _ => True)
        ((evaluate (callAt n) s (.node pos (.declaration pattern value))).run.run w).2) ∧
    (∀ n callee args (w : World), w.Keeps ((callAt n callee args).run.run w).2) ∧
    ∀ w₀ session, (Session.ofWorld w₀).Reaches session →
      session.world.HasIntrinsics (Session.ofWorld w₀).scope ⟨w₀.nextSerial⟩ ∧
      (∀ later, session.Reaches later → session.world.Extends later.world ∧
        ∀ s name v, session.world.Binds s name v → later.world.Binds s name v) ∧
      ∀ a after b, session.Evaluates a after → a.LeadsTo b →
        session.world.Extends b.world ∧ b.world.Extends b.run.2 ∧
        b.run.2.Extends after.world ∧
        b.world.HasIntrinsics (Session.ofWorld w₀).scope ⟨w₀.nextSerial⟩ ∧
        b.run.2.HasIntrinsics (Session.ofWorld w₀).scope ⟨w₀.nextSerial⟩ := by
  have hwritten {u : Term} (h : t.Has u) := h.isWritten (Session.isWritten_of_read hread)
  refine ⟨fun u hu hform n s w => ?_, fun pos pattern value hu n s w => ?_,
    fun n callee args w => ?_, fun w₀ session hsession => ?_⟩
  · have hdefines : u.defines = [] := by
      obtain ⟨role, hrole⟩ := hwritten hu
      rcases hform with hform | hblock
      · rw [hrole.role_eq hform] at hrole
        exact hrole.defines
      · unfold Term.isBlock at hblock
        split at hblock
        · rfl
        · cases hblock
    have haffects := affects_evaluate n s u w
    rw [hdefines] at haffects
    exact World.Gains.keeps haffects
  · obtain ⟨role, hrole⟩ := hwritten hu
    cases hrole with
    | declaration _ hvalue =>
        have haffects := affects_evaluate n s (.node pos (.declaration pattern value)) w
        unfold Term.defines Form.defines at haffects
        rw [hvalue.defines] at haffects
        exact haffects
  · exact World.Gains.keeps (Moment.grows (.call n callee args w) ⟨0⟩)
  · have hworld := hsession.extends_world
    refine ⟨Session.hasIntrinsics_of_extends hworld, fun later hlater => ?_,
      fun a after b hevaluates hleads => ?_⟩
    · exact ⟨hlater.extends_world, fun s name v => hlater.extends_world.binds⟩
    · have hbefore := hevaluates.before.trans hleads.before
      have hrun := b.world_extends
      have hsofar := hworld.trans hbefore
      exact ⟨hbefore, hrun, hleads.after.trans hevaluates.after,
        Session.hasIntrinsics_of_extends hsofar,
        Session.hasIntrinsics_of_extends (hsofar.trans hrun)⟩

/-- A text that calls a function which it declares, in a new session. -/
theorem evaluate_keeps_scopes_identity :
    ∃ t, Program.read "let id = x => x; id(1)".toList = .ok t ∧
      (∀ u, t.Has u → u.form.isExpression ∨ u.isBlock →
        (Session.start false .absent).world.Keeps
          ((evaluate (callAt 1) ⟨0⟩ u).run.run (Session.start false .absent).world).2) ∧
      (Session.start false .absent).world.HasIntrinsics ⟨0⟩ ⟨4⟩ := by
  have hreads : (Program.read "let id = x => x; id(1)".toList).isOk := by decide +kernel
  cases hread : Program.read "let id = x => x; id(1)".toList with
  | ok t =>
      obtain ⟨hexpressions, -, -, hsessions⟩ := evaluate_keeps_scopes hread
      exact ⟨t, rfl, fun u hu hform => hexpressions u hu hform 1 ⟨0⟩ _,
        (hsessions (.new false .absent) _ .here).1⟩
  | error e =>
      rw [hread] at hreads
      cases hreads

end VariantScript
