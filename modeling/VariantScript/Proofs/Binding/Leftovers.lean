import VariantScript.Proofs.Binding.Fitting
import VariantScript.Proofs.Binding.Statements

/-!
# What a failing text leaves behind

A text that fails has changed its scope only by adding names at its end: those of the functions that
it declares, which come first, then those of the declarations that were run before it failed, and at
last those that the pattern of a failing declaration had bound.  If the name of a function is taken,
only the functions before it are there.
-/

namespace VariantScript

open Syntax Eval

/-! ## Functions -/

/-- The functions that statements declare, with the identities that they are given. -/
def Syntax.Term.functions (s : ScopeId) : Nat → List Term → Slots
  | _, [] => []
  | next, .node _ (.functionDeclaration name params body) :: rest =>
      (name.text, .closure ⟨next⟩ ⟨params.patterns, body, s, some name.text, .function⟩) ::
        functions s (next + 1) rest
  | next, _ :: rest => functions s next rest

namespace Eval

section

variable {s : ScopeId} {w : World} {scope : Scope} {body : List Term}

/-- Functions are defined like other bindings, before anything else happens. -/
theorem run_hoist (hbody : ∀ t ∈ body, t.IsWritten .statement)
    (hscope : w.scopes[s.index]? = some scope) :
    ∃ next, (hoist s body).run.run w =
      (Fitting.ending ⟨Term.functions s w.nextSerial body, none⟩ scope.vars.names,
        { w.gain s ((Term.functions s w.nextSerial body).untilTaken scope.vars.names) with
          nextSerial := next }) := by
  induction body generalizing w scope with
  | nil =>
      use w.nextSerial
      unfold hoist Term.functions
      show (Except.ok (), w) = (.ok (), { w.gain s [] with nextSerial := w.nextSerial })
      rw [World.gain_nil]
  | cons t body ih =>
      have hrest := fun t ht => hbody t (List.mem_cons_of_mem _ ht)
      have ht := hbody t (.head _)
      unfold hoist
      split
      · rename_i heq
        cases heq
      · rename_i pos name params block rest heq
        obtain ⟨rfl, rfl⟩ := List.cons.inj heq
        let f : Value :=
          .closure ⟨w.nextSerial⟩ ⟨params.patterns, block, s, some name.text, .function⟩
        let w₁ : World := { w with nextSerial := w.nextSerial + 1 }
        have hscope₁ : w₁.scopes[s.index]? = some scope := hscope
        show ∃ next, (define s name.text f >>= fun _ => hoist s body).run.run w₁ = _
        rw [run_bind, fits_define name.text f w₁ scope hscope₁]
        unfold Term.functions Fitting.ending Slots.taken? Slots.untilTaken
        by_cases hname : name.text ∈ scope.vars.names
        · use w.nextSerial + 1
          simp only [if_pos hname]
          rfl
        · simp only [if_neg hname, Slots.taken?, Slots.untilTaken]
          obtain ⟨next, hnext⟩ := ih hrest (World.gain_scope hscope₁ [(name.text, f)])
          use next
          rw [hnext, World.gain_gain, Slots.names_append]
          rfl
      · rename_i heq
        obtain ⟨rfl, -⟩ := List.cons.inj heq
        cases ht
      · rename_i hother _ heq
        obtain ⟨rfl, rfl⟩ := List.cons.inj heq
        have hfunctions : Term.functions s w.nextSerial (t :: body) =
            Term.functions s w.nextSerial body := by
          rw [Term.functions]
          exact hother
        rw [hfunctions]
        exact ih hrest hscope

end

end Eval

/-! ## Statements -/

/-- Statements that all give values, in a scope of a world: the bindings of their declarations in
order, and the world that they leave. -/
inductive Completes (n : Nat) (s : ScopeId) : List Term → World → Slots → World → Prop where
  | nil {w : World} : Completes n s [] w [] w
  | declaration {pos : Option Position} {pattern : Pattern} {value : Term} {rest : List Term}
      {v : Value} {bound : Slots} {w w' w'' w₃ : World}
      (hvalue : Gives (evaluate (callAt n) s value) w v w')
      (hpattern : Gives (bindPattern s pattern v) w' () w'')
      (hrest : Completes n s rest w'' bound w₃) :
      Completes n s (.node pos (.declaration pattern value) :: rest) w
        ((pattern.fit v).bindings ++ bound) w₃
  | other {t : Term} {rest : List Term} {v : Value} {bound : Slots} {w w' w'' : World}
      (hform : ∀ pattern value, t.form ≠ .declaration pattern value)
      (ht : Gives (evaluate (callAt n) s t) w v w') (hrest : Completes n s rest w' bound w'') :
      Completes n s (t :: rest) w bound w''

/-- A statement that fails in a scope in which some names are taken, and the bindings that it leaves:
those that a pattern has made of a value before it failed. -/
inductive FailsLeaving (n : Nat) (s : ScopeId) (taken : List String) : Term → World → Slots → Prop
    where
  | pattern {pos : Option Position} {pattern : Pattern} {value : Term} {v : Value} {w w' w'' : World}
      {stop : Stop} (hvalue : Gives (evaluate (callAt n) s value) w v w')
      (hpattern : (bindPattern s pattern v).run.run w' = (.error stop, w'')) :
      FailsLeaving n s taken (.node pos (.declaration pattern value)) w
        ((pattern.fit v).bindings.untilTaken taken)
  | value {pos : Option Position} {pattern : Pattern} {value : Term} {w w' : World} {stop : Stop}
      (hvalue : (evaluate (callAt n) s value).run.run w = (.error stop, w')) :
      FailsLeaving n s taken (.node pos (.declaration pattern value)) w []
  | other {t : Term} {w w' : World} {stop : Stop}
      (hform : ∀ pattern value, t.form ≠ .declaration pattern value)
      (ht : (evaluate (callAt n) s t).run.run w = (.error stop, w')) : FailsLeaving n s taken t w []

namespace Eval

section

variable {n : Nat} {s : ScopeId} {t : Term} {w w' : World} {scope : Scope} {v : Value} {stop : Stop}

/-- What defines no names leaves its scope as it is, however it ends. -/
theorem scope_of_defines (n : Nat) (h : t.defines = []) (hscope : w.scopes[s.index]? = some scope) :
    ((evaluate (callAt n) s t).run.run w).2.scopes[s.index]? = some scope := by
  have haffects := affects_evaluate n s t w
  rw [h] at haffects
  exact World.Gains.kept haffects hscope fun _ => rfl

/-- A pattern that a value fits has made all of its bindings. -/
theorem scope_of_pattern {pattern : Pattern} {u : Unit}
    (hpattern : Gives (bindPattern s pattern v) w u w')
    (hscope : w.scopes[s.index]? = some scope) :
    w'.scopes[s.index]? = some { scope with vars := scope.vars ++ (pattern.fit v).bindings } := by
  have hrun := fits_bindPattern s pattern v w scope hscope
  rw [show (bindPattern s pattern v).run.run w = (.ok u, w') from hpattern] at hrun
  obtain ⟨hending, rfl⟩ := Prod.mk.inj hrun
  have htaken : (pattern.fit v).bindings.taken? scope.vars.names = none := by
    unfold Fitting.ending at hending
    split at hending
    · cases hending
    · assumption
  rw [World.gain_scope hscope, Slots.untilTaken_eq_self htaken]

/-- A pattern that fails has made its bindings up to there. -/
theorem scope_of_pattern_error {pattern : Pattern}
    (hpattern : (bindPattern s pattern v).run.run w = (.error stop, w'))
    (hscope : w.scopes[s.index]? = some scope) :
    w'.scopes[s.index]? = some { scope with
      vars := scope.vars ++ (pattern.fit v).bindings.untilTaken scope.vars.names } := by
  have hrun := fits_bindPattern s pattern v w scope hscope
  rw [hpattern] at hrun
  obtain ⟨-, rfl⟩ := Prod.mk.inj hrun
  exact World.gain_scope hscope _

/-- A declaration evaluates its value and binds its pattern. -/
theorem run_declaration (n : Nat) (s : ScopeId) (pos : Option Position) (pattern : Pattern)
    (value : Term) (w : World) :
    (evaluate (callAt n) s (.node pos (.declaration pattern value))).run.run w =
      match (evaluate (callAt n) s value).run.run w with
      | (.error stop, w') => (located pos (.error stop), w')
      | (.ok v, w') =>
          match (bindPattern s pattern v).run.run w' with
          | (.error stop, w'') => (located pos (.error stop), w'')
          | (.ok _, w'') => (.ok Value.unit, w'') := by
  rw [evaluate, run_locate, evaluateForm, run_bind]
  rcases (evaluate (callAt n) s value).run.run w with ⟨_ | v, w'⟩
  · rfl
  · dsimp only
    rw [run_bind]
    rcases (bindPattern s pattern v).run.run w' with ⟨_ | _, w''⟩ <;> rfl

theorem exists_located_error (pos : Option Position) (stop : Stop) :
    ∃ stop', (located pos (.error stop) : Except Stop Value) = .error stop' := by
  cases stop <;> exact ⟨_, rfl⟩

/-- A statement that gives a value completes. -/
theorem completes_of_gives (ht : t.DefinesAsDeclared)
    (hgives : Gives (evaluate (callAt n) s t) w v w') (hscope : w.scopes[s.index]? = some scope) :
    ∃ bound, (∀ rest more w'', Completes n s rest w' more w'' →
        Completes n s (t :: rest) w (bound ++ more) w'') ∧
      w'.scopes[s.index]? = some { scope with vars := scope.vars ++ bound } := by
  rcases ht.declaration_or with ⟨pos, pattern, value, rfl, hdefines⟩ | ⟨hform, hdefines⟩
  · have hrun := run_declaration n s pos pattern value w
    rw [show (evaluate (callAt n) s _).run.run w = (.ok v, w') from hgives] at hrun
    have hscope₁ := scope_of_defines n hdefines hscope
    rcases hvalue : (evaluate (callAt n) s value).run.run w with ⟨stop | u, w₁⟩
    · rw [hvalue] at hrun
      obtain ⟨stop', hstop⟩ := exists_located_error pos stop
      simp only [hstop] at hrun
      cases hrun
    · rw [hvalue] at hrun hscope₁
      rcases hpattern : (bindPattern s pattern u).run.run w₁ with ⟨stop | _, w₂⟩
      · obtain ⟨stop', hstop⟩ := exists_located_error pos stop
        simp only [hpattern, hstop] at hrun
        cases hrun
      · simp only [hpattern] at hrun
        cases hrun
        exact ⟨(pattern.fit u).bindings,
          fun rest more w'' hrest => .declaration hvalue hpattern hrest,
          scope_of_pattern hpattern hscope₁⟩
  · have hscope' := scope_of_defines n hdefines hscope
    rw [hgives] at hscope'
    refine ⟨[], fun rest more w'' hrest => .other hform hgives hrest, ?_⟩
    rw [List.append_nil]
    exact hscope'

/-- A statement that fails leaves its bindings up to there. -/
theorem failsLeaving_of_error (ht : t.DefinesAsDeclared)
    (herror : (evaluate (callAt n) s t).run.run w = (.error stop, w'))
    (hscope : w.scopes[s.index]? = some scope) :
    ∃ bound, FailsLeaving n s scope.vars.names t w bound ∧
      w'.scopes[s.index]? = some { scope with vars := scope.vars ++ bound } := by
  rcases ht.declaration_or with ⟨pos, pattern, value, rfl, hdefines⟩ | ⟨hform, hdefines⟩
  · have hrun := run_declaration n s pos pattern value w
    rw [herror] at hrun
    have hscope₁ := scope_of_defines n hdefines hscope
    rcases hvalue : (evaluate (callAt n) s value).run.run w with ⟨stop' | u, w₁⟩
    · rw [hvalue] at hrun hscope₁
      obtain ⟨-, rfl⟩ := Prod.mk.inj hrun
      refine ⟨[], .value hvalue, ?_⟩
      rw [List.append_nil]
      exact hscope₁
    · rw [hvalue] at hrun hscope₁
      rcases hpattern : (bindPattern s pattern u).run.run w₁ with ⟨stop' | _, w₂⟩
      · simp only [hpattern] at hrun
        obtain ⟨-, rfl⟩ := Prod.mk.inj hrun
        exact ⟨_, .pattern hvalue hpattern, scope_of_pattern_error hpattern hscope₁⟩
      · simp only [hpattern] at hrun
        cases hrun
  · have hscope' := scope_of_defines n hdefines hscope
    rw [herror] at hscope'
    refine ⟨[], .other hform herror, ?_⟩
    rw [List.append_nil]
    exact hscope'

/-- Statements that fail one after the other are some that complete and one that fails. -/
theorem evaluateBody_fails (result : Value) {ts : List Term} (hts : ∀ t ∈ ts, t.DefinesAsDeclared)
    (herror : (evaluateBody (callAt n) s result ts).run.run w = (.error stop, w'))
    (hscope : w.scopes[s.index]? = some scope) :
    ∃ done t rest bound left w₁, ts = done ++ t :: rest ∧ Completes n s done w bound w₁ ∧
      FailsLeaving n s (scope.vars ++ bound).names t w₁ left ∧
      w'.scopes[s.index]? = some { scope with vars := scope.vars ++ bound ++ left } := by
  induction ts generalizing result w scope with
  | nil =>
      unfold evaluateBody at herror
      cases herror
  | cons t ts ih =>
      unfold evaluateBody at herror
      rw [run_bind] at herror
      have ht := hts t (.head _)
      rcases hrun : (evaluate (callAt n) s t).run.run w with ⟨stop' | v, w₁⟩
      · rw [hrun] at herror
        cases herror
        obtain ⟨left, hleft, hscope'⟩ := failsLeaving_of_error ht hrun hscope
        refine ⟨[], t, ts, [], left, w, rfl, .nil, ?_, ?_⟩
        · rw [List.append_nil]
          exact hleft
        · rw [List.append_nil]
          exact hscope'
      · rw [hrun] at herror
        obtain ⟨bound, hcompletes, hscope₁⟩ := completes_of_gives ht hrun hscope
        obtain ⟨done, u, rest, more, left, w₂, rfl, hdone, hfails, hscope₂⟩ :=
          ih _ (fun t ht => hts t (.tail _ ht)) herror hscope₁
        rw [List.append_assoc] at hfails
        rw [List.append_assoc scope.vars] at hscope₂
        exact ⟨t :: done, u, rest, bound ++ more, left, w₂, rfl, hcompletes _ _ _ hdone, hfails,
          hscope₂⟩

end

end Eval

/-! ## Sessions -/

/-- What a program that fails in a scope leaves there, behind what was there before. -/
inductive Leftovers (n : Nat) (s : ScopeId) (body : List Term) (w : World) (vars : Slots) :
    Slots → Prop where
  /-- The name of a function is taken: the functions before it. -/
  | clash {name : String}
      (hclash : (Term.functions s w.nextSerial body).taken? vars.names = some name) :
      Leftovers n s body w vars ((Term.functions s w.nextSerial body).untilTaken vars.names)
  /-- A statement fails: all functions, the bindings of the statements before it, and its own. -/
  | statement {done rest : List Term} {t : Term} {bound left : Slots} {w' w'' : World}
      (hnone : (Term.functions s w.nextSerial body).taken? vars.names = none)
      (hhoist : Gives (hoist s body) w () w') (hbody : body = done ++ t :: rest)
      (hdone : Completes n s done w' bound w'')
      (ht : FailsLeaving n s (vars ++ Term.functions s w.nextSerial body ++ bound).names t w'' left) :
      Leftovers n s body w vars (Term.functions s w.nextSerial body ++ bound ++ left)

namespace Session

/-- The variables of the scope of a session, which has no scope around it. -/
def HasVars (session : Session) (vars : Slots) : Prop :=
  session.world.scopes[session.scope.index]? = some ⟨none, vars, false⟩

variable {session : Session} {vars : Slots}

theorem HasVars.lookup? (h : session.HasVars vars) (name : String) :
    session.world.lookup? session.scope name = vars.get? name := by
  rw [World.lookup?, h]
  dsimp only
  cases vars.get? name <;> rfl

theorem HasVars.extends {w : World} (h : session.HasVars vars) (hextends : session.world.Extends w) :
    ∃ added, HasVars ⟨w, session.scope⟩ (vars ++ added) := by
  obtain ⟨⟨parent, vars', isCall⟩, hscope, hparent, hcall, added, rfl⟩ := hextends _ _ h
  obtain rfl : parent = none := hparent
  obtain rfl : isCall = false := hcall
  exact ⟨added, hscope⟩

theorem scope_evaluateText (session : Session) (code : String) :
    (session.evaluateText code).2.scope = session.scope := by
  unfold evaluateText
  split <;> rfl

theorem scope_run (session : Session) (code : String) :
    (session.run code).2.scope = session.scope := by
  have hscope :=
    scope_evaluateText { session with world := session.world.note (.started code.length) } code
  unfold Session.run
  dsimp only
  split <;> exact hscope

theorem HasVars.evaluateText (h : session.HasVars vars) (code : String) :
    ∃ added, (session.evaluateText code).2.HasVars (vars ++ added) := by
  obtain ⟨added, hadded⟩ := h.extends (evaluateText_extends session code)
  refine ⟨added, ?_⟩
  unfold HasVars
  rw [scope_evaluateText]
  exact hadded

theorem HasVars.run (h : session.HasVars vars) (code : String) :
    ∃ added, (session.run code).2.HasVars (vars ++ added) := by
  have hstarted : HasVars { session with world := session.world.note (.started code.length) } vars := h
  obtain ⟨added, hadded⟩ := hstarted.evaluateText code
  refine ⟨added, ?_⟩
  unfold HasVars at hadded ⊢
  rw [run_scopes, scope_run]
  rw [scope_evaluateText] at hadded
  exact hadded

/-- The scope of a session has no scope around it, whatever the session has done. -/
theorem Reaches.exists_vars {w₀ : World} (h : (ofWorld w₀).Reaches session) :
    ∃ vars, session.HasVars vars := by
  induction h with
  | here => exact ⟨_, Array.getElem?_push_size⟩
  | reset => exact ⟨_, Array.getElem?_push_size⟩
  | legacy _ _ ih | cleared _ ih => exact ih
  | evaluated _ code ih =>
      obtain ⟨vars, hvars⟩ := ih
      obtain ⟨added, hadded⟩ := hvars.evaluateText code
      exact ⟨_, hadded⟩
  | ran _ code ih =>
      obtain ⟨vars, hvars⟩ := ih
      obtain ⟨added, hadded⟩ := hvars.run code
      exact ⟨_, hadded⟩

/-- A program that fails leaves what its functions and statements have defined. -/
theorem leftovers_of_error {n : Nat} {s : ScopeId} {pos : Option Position} {body : List Term}
    {w w' : World} {scope : Scope} {stop : Stop}
    (hwritten : ∀ t ∈ body, t.IsWritten .statement) (hbody : ∀ t ∈ body, t.DefinesAsDeclared)
    (hscope : w.scopes[s.index]? = some scope)
    (herror : (evaluate (callAt n) s (.node pos (.program body))).run.run w = (.error stop, w')) :
    ∃ added, Leftovers n s body w scope.vars added ∧
      w'.scopes[s.index]? = some { scope with vars := scope.vars ++ added } := by
  obtain ⟨next, hhoist⟩ := run_hoist hwritten hscope
  rw [evaluate, run_locate, evaluateForm, run_bind, hhoist] at herror
  cases hclash : (Term.functions s w.nextSerial body).taken? scope.vars.names with
  | some name =>
      refine ⟨_, .clash hclash, ?_⟩
      simp only [Fitting.ending, hclash] at herror
      obtain ⟨-, rfl⟩ := Prod.mk.inj herror
      exact World.gain_scope hscope _
  | none =>
      have hscope' := World.gain_scope hscope (Term.functions s w.nextSerial body)
      rw [Slots.untilTaken_eq_self hclash] at hhoist herror
      simp only [Fitting.ending, hclash] at hhoist herror
      generalize hw₁ : { w.gain s (Term.functions s w.nextSerial body) with nextSerial := next } = w₁
        at hhoist herror
      have hscope₁ : w₁.scopes[s.index]? =
          some { scope with vars := scope.vars ++ Term.functions s w.nextSerial body } := by
        rw [← hw₁]
        exact hscope'
      rcases hrun : (evaluateBody (callAt n) s Value.unit body).run.run w₁ with ⟨stop' | v, w₂⟩
      · rw [hrun] at herror
        obtain ⟨-, rfl⟩ := Prod.mk.inj herror
        obtain ⟨done, t, rest, bound, left, w₃, hsplit, hdone, ht, hleft⟩ :=
          evaluateBody_fails Value.unit hbody hrun hscope₁
        refine ⟨_, .statement hclash hhoist hsplit hdone ht, ?_⟩
        rw [hleft, List.append_assoc, List.append_assoc, List.append_assoc]
      · rw [hrun] at herror
        cases herror

end Session

/-- What a failing step of a session leaves behind.  A text that is no program changes nothing.  A
program that fails leaves the variables of the session as they were, and behind them what it has
defined: its functions, up to the first whose name is taken; if there is none, what the declarations
before the failing statement have bound; and if that one is a declaration whose pattern failed, what
the pattern had bound by then.  Later steps find these variables and nothing else. -/
theorem failed_text_leaves {w₀ : World} {session after : Session} {code : String}
    {failure : Failure} (hsession : (Session.ofWorld w₀).Reaches session)
    (hfails : session.evaluateText code = (.error failure, after)) :
    ∃ vars added, session.HasVars vars ∧ after.HasVars (vars ++ added) ∧
      after.scope = session.scope ∧
      (∀ name, after.world.lookup? after.scope name = (vars ++ added).get? name) ∧
      ((∃ e, Program.read code.toList = .error e ∧ after = session ∧ added = []) ∨
        ∃ pos body, Program.read code.toList = .ok (.node pos (.program body)) ∧
          Leftovers callBound session.scope body session.world vars added) := by
  obtain ⟨vars, hvars⟩ := hsession.exists_vars
  have hscope : after.scope = session.scope := by
    have hscope := session.scope_evaluateText code
    rw [hfails] at hscope
    exact hscope
  cases hread : Program.read code.toList with
  | error e =>
      have hafter : after = session := by
        unfold Session.evaluateText at hfails
        rw [hread] at hfails
        cases hfails
        rfl
      subst hafter
      refine ⟨vars, [], hvars, ?_, rfl, ?_, .inl ⟨e, rfl, rfl, rfl⟩⟩
      · rw [List.append_nil]
        exact hvars
      · rw [List.append_nil]
        exact hvars.lookup?
  | ok t =>
      obtain ⟨pos, body, rfl, hbody⟩ := Program.definesAsDeclared_of_read hread
      have hwritten : ∀ t ∈ body, t.IsWritten .statement := by
        cases Session.isWritten_of_read hread with
        | program hwritten => exact hwritten
      rw [session.evaluateText_of_read hread] at hfails
      obtain ⟨hresult, rfl⟩ := Prod.mk.inj hfails
      rcases hrun : (Moment.term callBound session.scope (.node pos (.program body))
        session.world).run with ⟨stop | v, w'⟩
      · obtain ⟨added, hleftovers, hafter⟩ :=
          Session.leftovers_of_error hwritten hbody hvars hrun
        have hafter : Session.HasVars ⟨w', session.scope⟩ (vars ++ added) := hafter
        exact ⟨vars, added, hvars, hafter, hscope, hafter.lookup?, .inr ⟨pos, body, rfl, hleftovers⟩⟩
      · rw [hrun] at hresult
        cases hresult

/-- A function, a declaration, and one whose pattern binds a name twice, in a new session. -/
theorem failed_text_leaves_pattern :
    let session := Session.start false .absent
    let code := "function f() \x7b return 1 \x7d let a = 2; let [b, a, c] = [3, 4, 5]"
    ∃ added pos body, Program.read code.toList = .ok (.node pos (.program body)) ∧
      (session.evaluateText code).2.HasVars (World.rootVars ⟨4⟩ ++ added) ∧
      added.names = ["f", "a", "b"] ∧
      Leftovers callBound ⟨0⟩ body session.world (World.rootVars ⟨4⟩) added := by
  intro session code
  have hreads : (Program.read code.toList).isOk = true := by decide +kernel
  have hends : (session.evaluateText code).1.isOk = false := by decide +kernel
  have hnames : (session.evaluateText code).2.names = ["harness", "equal", "f", "a", "b"] := by
    decide +kernel
  rcases hrun : session.evaluateText code with ⟨failure | v, after⟩
  · rw [hrun] at hnames
    obtain ⟨vars, added, hvars, hafter, hscope, -, hleft⟩ :=
      failed_text_leaves (.here : session.Reaches session) hrun
    have hstart : session.HasVars (World.rootVars ⟨4⟩) := rfl
    obtain rfl : vars = World.rootVars ⟨4⟩ := by
      have hsame := hvars.symm.trans hstart
      cases hsame
      rfl
    rcases hleft with ⟨e, hread, -, -⟩ | ⟨pos, body, hread, hleftovers⟩
    · rw [hread] at hreads
      cases hreads
    · refine ⟨added, pos, body, hread, hafter, ?_, hleftovers⟩
      unfold Session.names World.names at hnames
      rw [show after.world.scopes[after.scope.index]? = _ from hafter] at hnames
      dsimp only at hnames
      rw [Slots.names_append] at hnames
      have hadded : ["harness", "equal"] ++ added.names = ["harness", "equal"] ++ ["f", "a", "b"] :=
        hnames
      exact List.append_cancel_left hadded
  · rw [hrun] at hends
    cases hends

end VariantScript
