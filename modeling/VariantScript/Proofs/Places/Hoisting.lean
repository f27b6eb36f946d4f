import VariantScript.Proofs.SideBySide.Places

/-!
# Where functions are declared

The functions of a body are defined before its first statement runs, and their declarations do
nothing when their turn comes.  So a body runs like its declarations followed by its other
statements, and it does not matter where among the other statements a function is declared.

A body is rearranged if its declarations keep their order among themselves and so do its other
statements.  Statements that are moved have other places in the text, so bodies are compared up to
places, and so are their runs.
-/

namespace VariantScript

open Syntax Eval

/-! ## Declarations and other statements -/

/-- Whether a statement declares a function.  A declaration of the wrong shape counts: bodies break
down with it where they define their functions. -/
def Syntax.Term.declaresFunction : Term → Bool
  | .node _ (.functionDeclaration _ _ _) => true
  | .node _ (.illFormed (.wrongFunction _)) => true
  | _ => false

/-- The second body has the statements of the first one, up to places, with the declarations of
functions in the same order and the other statements in the same order. -/
structure Rearranges (body body' : List Term) : Prop where
  declarations : (body'.filter Term.declaresFunction).map Term.unplaced =
    (body.filter Term.declaresFunction).map Term.unplaced
  others : (body'.filter (! ·.declaresFunction)).map Term.unplaced =
    (body.filter (! ·.declaresFunction)).map Term.unplaced

/-- Nothing is added or left out when a body is rearranged. -/
theorem Rearranges.perm {body body' : List Term} (h : Rearranges body body') :
    (body'.map Term.unplaced).Perm (body.map Term.unplaced) := by
  have hparts (ts : List Term) :
      ((ts.filter Term.declaresFunction).map Term.unplaced ++
        (ts.filter (! ·.declaresFunction)).map Term.unplaced).Perm (ts.map Term.unplaced) := by
    rw [← List.map_append]
    exact (List.filter_append_perm Term.declaresFunction ts).map Term.unplaced
  have hsame := hparts body'
  rw [h.declarations, h.others] at hsame
  exact hsame.symm.trans (hparts body)

/-! ## Bodies taken apart -/

/-- Only the declarations of a body define something in advance. -/
theorem hoist_declarations (s : ScopeId) (body : List Term) :
    hoist s (body.filter Term.declaresFunction) = hoist s body := by
  induction body with
  | nil => rfl
  | cons t rest ih =>
      obtain ⟨pos, form⟩ := t
      cases form with
      | functionDeclaration name params body =>
          rw [List.filter_cons_of_pos rfl]
          simp only [hoist, ih]
      | illFormed problem =>
          cases problem with
          | wrongFunction b => rfl
          | _ => exact ih
      | _ => exact ih

section

variable {call : Value → List Value → Eval Value}

/-- A declaration does nothing when its turn comes. -/
theorem evaluate_declaration (s : ScopeId) {t : Term} (h : t.declaresFunction = true) :
    evaluate call s t = pure Value.unit := by
  obtain ⟨pos, form⟩ := t
  cases form with
  | functionDeclaration => rfl
  | illFormed problem =>
      cases problem with
      | wrongFunction => rfl
      | _ => cases h
  | _ => cases h

theorem isExpressionStatement_declaration {t : Term} (h : t.declaresFunction = true) :
    t.isExpressionStatement = false := by
  obtain ⟨pos, form⟩ := t
  cases form with
  | expressionStatement => cases h
  | _ => rfl

/-- Only the other statements of a body run after that. -/
theorem evaluateBody_others (s : ScopeId) (result : Value) (body : List Term) :
    evaluateBody call s result (body.filter (! ·.declaresFunction)) =
      evaluateBody call s result body := by
  induction body generalizing result with
  | nil => rfl
  | cons t rest ih =>
      cases ht : t.declaresFunction with
      | true =>
          rw [List.filter_cons_of_neg (by simp [ht]), evaluateBody, evaluate_declaration s ht,
            pure_bind, isExpressionStatement_declaration ht, if_neg Bool.false_ne_true, ih]
      | false =>
          rw [List.filter_cons_of_pos (by simp [ht]), evaluateBody, evaluateBody]
          exact bind_congr fun v => ih _

/-- What a body does in a scope: it defines its functions and runs. -/
theorem run_rearranged (hcall : CallsForget call) {body body' : List Term}
    (h : Rearranges body body') (s : ScopeId) (w : World) :
    let run := (do hoist s body; evaluateBody call s Value.unit body : Eval Value).run.run w
    let run' := (do hoist s body'; evaluateBody call s Value.unit body' : Eval Value).run.run w
    unplacedEnd Value.unplaced run'.1 = unplacedEnd Value.unplaced run.1 ∧
      run'.2.unplaced = run.2.unplaced := by
  intro run run'
  -- Without places, both bodies are taken apart into the same two lists.
  have hforgets (ts : List Term) :
      Forgets Value.unplaced (do hoist s ts; evaluateBody call s Value.unit ts)
        (do
          hoist s ((ts.filter Term.declaresFunction).map Term.unplaced)
          evaluateBody call s Value.unit ((ts.filter (! ·.declaresFunction)).map Term.unplaced)) := by
    rw [← hoist_declarations s ts, ← evaluateBody_others s Value.unit ts]
    exact (forgets_hoist s _).bind fun _ => forgets_evaluateBody hcall s Value.unit _
  have hrun' := hforgets body' w
  rw [h.declarations, h.others, hforgets body w] at hrun'
  exact Prod.mk.inj hrun'.symm

end

/-! ## Outcomes -/

/-- Two evaluations end in the same way up to places: with the same value, in faults of the same kind
that say the same about the same values, or early for the same reason. -/
inductive EndsTheSame : Except Stop Value → Except Stop Value → Prop where
  | value {v v' : Value} (hvalue : v'.unplaced = v.unplaced) : EndsTheSame (.ok v) (.ok v')
  | fault {f f' : Fault} (hkind : f'.cause.kind = f.cause.kind)
      (hmessage : f'.cause.message = f.cause.message)
      (hcause : f'.cause.unplaced = f.cause.unplaced) :
      EndsTheSame (.error (.fault f)) (.error (.fault f'))
  | returned {v v' : Value} (hvalue : v'.unplaced = v.unplaced) :
      EndsTheSame (.error (.returned v)) (.error (.returned v'))
  | tooDeep : EndsTheSame (.error .tooDeep) (.error .tooDeep)
  | breakdown {b : Breakdown} : EndsTheSame (.error (.breakdown b)) (.error (.breakdown b))

/-- Ends that are the same without places are so wherever the evaluated terms stand. -/
theorem endsTheSame_located {r r' : Except Stop Value}
    (h : unplacedEnd Value.unplaced r' = unplacedEnd Value.unplaced r) (pos pos' : Option Position) :
    EndsTheSame (located pos r) (located pos' r') := by
  unfold unplacedEnd at h
  cases r with
  | ok v =>
      cases r' with
      | error e' => cases h
      | ok v' => exact .value (Except.ok.inj h)
  | error e =>
      cases r' with
      | ok v' => cases h
      | error e' =>
          have he : e'.unplaced = e.unplaced := Except.error.inj h
          cases e with
          | fault f =>
              cases e' with
              | fault f' =>
                  have hcause : f'.cause.unplaced = f.cause.unplaced :=
                    congrArg Fault.cause (Stop.fault.inj he)
                  have halike : f.cause.Alike f'.cause :=
                    f.cause.alike_unplaced.trans (hcause ▸ f'.cause.alike_unplaced.symm)
                  refine .fault ?_ ?_ ?_
                  · rw [cause_locate, cause_locate, halike.kind]
                  · rw [cause_locate, cause_locate, halike.message]
                  · rw [cause_locate, cause_locate, hcause]
              | _ => cases he
          | returned v =>
              cases e' with
              | returned v' => exact .returned (Stop.returned.inj he)
              | _ => cases he
          | tooDeep =>
              cases e' with
              | tooDeep => exact .tooDeep
              | _ => cases he
          | breakdown b =>
              cases e' with
              | breakdown b' =>
                  cases he
                  exact .breakdown
              | _ => cases he

/-- Two evaluations have the same outcome up to places: they end in the same way, they show the same
values, and they leave the same world behind, in which every scope has the same variables in the same
order. -/
structure OutcomesAgree (r r' : Except Stop Value × World) : Prop where
  ends : EndsTheSame r.1 r'.1
  observations : r'.2.observations.map Value.unplaced = r.2.observations.map Value.unplaced
  names (s : ScopeId) : r'.2.names s = r.2.names s
  world : r'.2.unplaced = r.2.unplaced

/-- Evaluations of terms at any places have the same outcome if what is in the terms does the same
without places. -/
theorem outcomesAgree_located {r r' : Except Stop Value × World}
    (hends : unplacedEnd Value.unplaced r'.1 = unplacedEnd Value.unplaced r.1)
    (hworld : r'.2.unplaced = r.2.unplaced) (pos pos' : Option Position) :
    OutcomesAgree (located pos r.1, r.2) (located pos' r'.1, r'.2) where
  ends := endsTheSame_located hends pos pos'
  observations := by
    have hobserved := congrArg World.observations hworld
    rwa [World.observations_unplaced, World.observations_unplaced] at hobserved
  names s := by
    have hnames := congrArg (World.names · s) hworld
    simpa only [World.names_unplaced] using hnames
  world := hworld

/-- It does not matter where in a program or a block its functions are declared: evaluated in any
scope of any world, it has the same outcome with its statements rearranged. -/
theorem evaluate_rearranged {body body' : List Term} (h : Rearranges body body') (n : Nat)
    (s : ScopeId) (w : World) (pos pos' : Option Position) :
    OutcomesAgree ((evaluate (callAt n) s (.node pos (.program body))).run.run w)
        ((evaluate (callAt n) s (.node pos' (.program body'))).run.run w) ∧
      OutcomesAgree ((evaluate (callAt n) s (.node pos (.block body))).run.run w)
        ((evaluate (callAt n) s (.node pos' (.block body'))).run.run w) := by
  simp only [evaluate, run_locate]
  constructor
  · obtain ⟨hends, hworld⟩ := run_rearranged (callsForget n) h s w
    exact outcomesAgree_located hends hworld pos pos'
  · -- A block runs in a scope of its own, which is the same in both evaluations.
    obtain ⟨inner, hopen⟩ : ∃ inner,
        (openScope (some s) false).run.run w = (.ok inner.1, inner.2) := ⟨(_, _), rfl⟩
    obtain ⟨hends, hworld⟩ := run_rearranged (callsForget n) h inner.1 inner.2
    have hblock (ts : List Term) : (evaluateForm (callAt n) s (.block ts)).run.run w =
        (do hoist inner.1 ts; evaluateBody (callAt n) inner.1 Value.unit ts : Eval Value).run.run
          inner.2 := by
      rw [evaluateForm, run_bind, hopen]
    rw [hblock, hblock]
    exact outcomesAgree_located hends hworld pos pos'

/-- A function that is called in the statement before or after its declaration, each on a line of its
own. -/
theorem evaluate_rearranged_called :
    let term (line : Nat) (form : Form) : Term := .node (some ⟨line, 1⟩) form
    let declared (line : Nat) : Term := term line (.functionDeclaration ⟨"f", ⟨line, 10⟩⟩ ⟨none, []⟩
      (term line (.block [term line (.returnValue (term line (.truth true)))])))
    let called (line : Nat) : Term := term line
      (.expressionStatement (term line (.call (term line (.reference ⟨"f", ⟨line, 1⟩⟩)) [])))
    let session := Session.start false .recording
    Rearranges [called 1, declared 2] [declared 1, called 2] ∧
      OutcomesAgree
        ((evaluate (callAt callBound) session.scope
          (term 1 (.program [called 1, declared 2]))).run.run session.world)
        ((evaluate (callAt callBound) session.scope
          (term 1 (.program [declared 1, called 2]))).run.run session.world) := by
  intro term declared called session
  have hrearranged : Rearranges [called 1, declared 2] [declared 1, called 2] := ⟨rfl, rfl⟩
  exact ⟨hrearranged,
    (evaluate_rearranged hrearranged callBound session.scope session.world _ _).1⟩

end VariantScript
