import VariantScript.Proofs.Evaluation.Scopes
import VariantScript.Proofs.Joining.Statements
import VariantScript.Proofs.Places.Evaluation

/-!
# One text in place of two

Two texts with a semicolon on a line between them do at once what they do one after the other in the
same session, as long as the second one declares no functions in its own body; such functions would
be there before the first text runs.  Up to places the session is the same afterwards.  The value is
that of the second text if it has an expression statement, and that of the first one otherwise.
-/

namespace VariantScript

open Syntax Eval

/-! ## Bodies one after the other -/

theorem hoist_append (s : ScopeId) (above below : List Term) :
    hoist s (above ++ below) = (do hoist s above; hoist s below) := by
  induction above with
  | nil => rfl
  | cons t rest ih =>
      obtain ⟨pos, form⟩ := t
      cases form with
      | functionDeclaration name params body =>
          simp only [List.cons_append, hoist, ih, bind_assoc]
      | illFormed problem =>
          cases problem with
          | wrongFunction b => rfl
          | _ => exact ih
      | _ => exact ih

/-- Statements from a text among which no function is declared define nothing in advance. -/
theorem hoist_undeclared (s : ScopeId) {body : List Term}
    (hbody : ∀ t ∈ body, t.IsWritten .statement) (hnone : ∀ t ∈ body, t.declared? = none) :
    hoist s body = pure () := by
  induction body with
  | nil => rfl
  | cons t rest ih =>
      have hrest := ih (fun u hu => hbody u (.tail _ hu)) fun u hu => hnone u (.tail _ hu)
      have ht := hnone t (.head _)
      cases hbody t (.head _) with
      | functionDeclaration => cases ht
      | _ => exact hrest

theorem run_bind_pure {α : Type} (act : Eval α) (g : α → α) (w : World) :
    (act >>= fun x => pure (g x)).run.run w = ((act.run.run w).1.map g, (act.run.run w).2) := by
  rw [run_bind]
  rcases act.run.run w with ⟨_ | _, _⟩ <;> rfl

section

variable (call : Value → List Value → Eval Value) (s : ScopeId)

theorem evaluateBody_append (result : Value) (above below : List Term) :
    evaluateBody call s result (above ++ below) = (do
      let v ← evaluateBody call s result above
      evaluateBody call s v below) := by
  induction above generalizing result with
  | nil => rw [evaluateBody, pure_bind, List.nil_append]
  | cons t rest ih =>
      rw [List.cons_append, evaluateBody, evaluateBody, bind_assoc]
      simp only [ih]

/-- The value that a body starts from is its value unless it has an expression statement. -/
theorem evaluateBody_start (result start : Value) (ts : List Term) :
    evaluateBody call s result ts = (do
      let v ← evaluateBody call s start ts
      return if ts.any Term.isExpressionStatement then v else result) := by
  induction ts generalizing result start with
  | nil => rw [evaluateBody, evaluateBody, pure_bind]; rfl
  | cons t rest ih =>
      rw [evaluateBody, evaluateBody, bind_assoc]
      refine bind_congr fun v => ?_
      cases ht : t.isExpressionStatement with
      | true => simp [ht]
      | false => simpa [ht] using ih result start

/-- A program of two bodies, the second of which defines nothing in advance, runs one after the
other. -/
theorem evaluateForm_append (above : List Term) {below : List Term}
    (hnone : hoist s below = pure ()) :
    evaluateForm call s (.program (above ++ below)) = (do
      let v ← evaluateForm call s (.program above)
      let u ← evaluateForm call s (.program below)
      return if below.any Term.isExpressionStatement then u else v) := by
  simp only [evaluateForm, hoist_append, hnone, evaluateBody_append, bind_assoc, pure_bind]
  refine bind_congr fun _ => bind_congr fun v => ?_
  exact evaluateBody_start call s v Value.unit below

theorem run_append (above : List Term) {below : List Term} (hnone : hoist s below = pure ())
    (w : World) :
    (evaluateForm call s (.program (above ++ below))).run.run w =
      match (evaluateForm call s (.program above)).run.run w with
      | (.ok v, w') =>
          (((evaluateForm call s (.program below)).run.run w').1.map fun u =>
              if below.any Term.isExpressionStatement then u else v,
            ((evaluateForm call s (.program below)).run.run w').2)
      | (.error e, w') => (.error e, w') := by
  rw [evaluateForm_append call s above hnone, run_bind]
  rcases (evaluateForm call s (.program above)).run.run w with ⟨e | v, w'⟩
  · rfl
  · exact run_bind_pure _ _ w'

end

/-! ## Without places -/

/-- The result of a run without places. -/
def unplacedResult : Except Failure Value → Except Failure Value
  | .ok v => .ok v.unplaced
  | .error e => .error e.unplaced

theorem unplacedEnd_located (pos : Option Position) (x : Except Stop Value) :
    unplacedEnd Value.unplaced (located pos x) =
      located (pos.map Position.unplaced) (unplacedEnd Value.unplaced x) := by
  rcases x with (fault | _ | _ | _) | _
  · exact congrArg (fun f => Except.error (Stop.fault f)) (fault.unplaced_locate pos)
  all_goals rfl

/-- A change of the value of a run may as well be made before its faults are placed. -/
theorem mapError_located_map (pos : Option Position) (x : Except Stop Value) (g : Value → Value) :
    (located pos (x.map g)).mapError Failure.ofStop =
      ((located pos x).mapError Failure.ofStop).map g := by
  rcases x with (_ | _ | _ | _) | _ <;> rfl

theorem unplacedResult_mapError (x : Except Stop Value) :
    unplacedResult (x.mapError Failure.ofStop) =
      (unplacedEnd Value.unplaced x).mapError Failure.ofStop := by
  cases x with
  | ok v => rfl
  | error e => exact congrArg Except.error (Failure.unplaced_ofStop e)

/-- Results that are the same without places are so with another value in place of theirs. -/
theorem unplacedResult_map {x x' : Except Failure Value} (h : unplacedResult x' = unplacedResult x)
    (own : Bool) (v : Value) :
    unplacedResult (x'.map fun u => if own then u else v) =
      unplacedResult (if own then x else x.map fun _ => v) := by
  cases x with
  | ok u =>
      cases x' with
      | ok u' => cases own with
        | true => exact h
        | false => rfl
      | error e' => cases h
  | error e =>
      cases x' with
      | ok u' => cases h
      | error e' => cases own <;> exact h

/-- What does not depend on places is the same in statements that differ in their places. -/
theorem Syntax.Term.map_alike {β : Type} {f : Term → β} (hf : ∀ t : Term, f t.unplaced = f t)
    {ts us : List Term} (h : us.map Term.unplaced = ts.map Term.unplaced) :
    us.map f = ts.map f := by
  have hunplaced (ts : List Term) : (ts.map Term.unplaced).map f = ts.map f := by
    rw [List.map_map]
    exact List.map_congr_left fun t _ => hf t
  rw [← hunplaced us, ← hunplaced ts, h]

/-- Statements from a text that differ in their places from others among which no function is
declared define nothing in advance. -/
theorem hoist_alike (s : ScopeId) {body body' : List Term}
    (hwritten : ∀ t ∈ body', t.IsWritten .statement)
    (hsame : body'.map Term.unplaced = body.map Term.unplaced)
    (hnone : ∀ t ∈ body, t.declared? = none) : hoist s body' = pure () := by
  refine hoist_undeclared s hwritten fun t ht => ?_
  have hmem : t.declared? ∈ body.map Term.declared? := by
    rw [← Term.map_alike Term.declared?_unplaced hsame]
    exact List.mem_map_of_mem ht
  obtain ⟨t', ht', heq⟩ := List.mem_map.1 hmem
  rw [← heq]
  exact hnone t' ht'

/-- The place of a program without statements is not told. -/
theorem located_program (call : Value → List Value → Eval Value) (s : ScopeId)
    {pos pos' : Option Position} {body : List Term} (h : body = [] ∨ pos = pos') (w : World) :
    located pos ((evaluateForm call s (.program body)).run.run w).1 =
      located pos' ((evaluateForm call s (.program body)).run.run w).1 := by
  rcases h with rfl | rfl <;> rfl

/-- Programs whose statements differ in their places end in the same way without places. -/
theorem run_alike {call : Value → List Value → Eval Value} (hcall : CallsForget call) (s : ScopeId)
    {pos pos' : Option Position} {body body' : List Term}
    (hsame : body'.map Term.unplaced = body.map Term.unplaced)
    (hpos : body = [] ∨ pos'.map Position.unplaced = pos.map Position.unplaced) (w : World) :
    unplacedEnd Value.unplaced
          (located pos' ((evaluateForm call s (.program body')).run.run w).1) =
        unplacedEnd Value.unplaced
          (located pos ((evaluateForm call s (.program body)).run.run w).1) ∧
      ((evaluateForm call s (.program body')).run.run w).2.unplaced =
        ((evaluateForm call s (.program body)).run.run w).2.unplaced := by
  have hform (ts : List Term) :
      (Form.program ts).unplaced = .program (ts.map Term.unplaced) := by simp
  have hrun := forgets_evaluateForm hcall s (.program body) w
  have hrun' := forgets_evaluateForm hcall s (.program body') w
  rw [hform] at hrun hrun'
  rw [hsame] at hrun'
  obtain ⟨hending, hworld⟩ := Prod.mk.inj (hrun'.symm.trans hrun)
  refine ⟨?_, hworld⟩
  have hpos' : body.map Term.unplaced = [] ∨
      pos'.map Position.unplaced = pos.map Position.unplaced :=
    hpos.imp (fun h => by rw [h]; rfl) id
  have hlocated := located_program call s hpos' w.unplaced
  rw [hrun] at hlocated
  rw [unplacedEnd_located, unplacedEnd_located, hending]
  exact hlocated

/-! ## Texts -/

/-- Two texts as one, with a semicolon on a line between them. -/
def joinTexts (p q : String) : String := p ++ "\n;\n" ++ q

theorem toList_joinTexts (p q : String) :
    (joinTexts p q).toList = p.toList ++ '\n' :: ';' :: '\n' :: q.toList := by
  simp [joinTexts]

theorem Session.evaluateText_program (s : Session) {code : String} {pos : Option Position}
    {body : List Term} (hread : Program.read code.toList = .ok (.node pos (.program body))) :
    s.evaluateText code =
      ((located pos ((evaluateForm (callAt callBound) s.scope (.program body)).run.run
          s.world).1).mapError Failure.ofStop,
        ⟨((evaluateForm (callAt callBound) s.scope (.program body)).run.run s.world).2,
          s.scope⟩) := by
  have hrun := run_locate pos (evaluateForm (callAt callBound) s.scope (.program body)) s.world
  rw [evaluateText_of_read s hread, Moment.run, evaluate, hrun]

/-- A session agrees with one run of both texts.  Let the second text declare no functions in its own
body.  If the first text fails, both texts as one fail with the same failure and leave the same
session.  Otherwise both texts as one leave the session that the second one leaves after the first,
up to places, so with the same names in the same order and the same observations.  They end in the
same failure up to its place, or else in the value of the second text if it has an expression
statement and in that of the first one otherwise. -/
theorem evaluateText_joined (session : Session) {p q : String} {t u : Term}
    (hp : Program.read p.toList = .ok t) (hq : Program.read q.toList = .ok u)
    (hfunctions : ∀ statement ∈ u.form.parts, statement.declared? = none) :
    (∀ e after, session.evaluateText p = (.error e, after) →
      session.evaluateText (joinTexts p q) = (.error e, after)) ∧
    ∀ v after, session.evaluateText p = (.ok v, after) →
      let once := session.evaluateText (joinTexts p q)
      let twice := after.evaluateText q
      once.2.unplaced = twice.2.unplaced ∧
        once.2.names = twice.2.names ∧
        once.2.world.observations.map Value.unplaced =
          twice.2.world.observations.map Value.unplaced ∧
        unplacedResult once.1 =
          unplacedResult (if u.form.parts.any Term.isExpressionStatement then twice.1
            else twice.1.map fun _ => v) := by
  obtain ⟨ppos, qpos, pos, above, below, below', rfl, rfl, hread, hsame, hfirst, hsecond⟩ :=
    Program.read_joined hp hq
  rw [← toList_joinTexts] at hread
  have hany : below'.any Term.isExpressionStatement = below.any Term.isExpressionStatement := by
    have hstatements := Term.map_alike Term.isExpressionStatement_unplaced hsame
    simpa [List.any_map] using congrArg (List.any · id) hstatements
  have hwritten : ∀ t ∈ below', t.IsWritten .statement := by
    cases Session.isWritten_of_read hread with
    | program hbody => exact fun t ht => hbody t (List.mem_append_right above ht)
  have hnone := hoist_alike session.scope hwritten hsame hfunctions
  have hwhole := run_append (callAt callBound) session.scope above hnone session.world
  rw [Session.evaluateText_program session hread, Session.evaluateText_program session hp,
    located_program (callAt callBound) session.scope (hfirst.imp_right Eq.symm) session.world]
  cases hran : (evaluateForm (callAt callBound) session.scope (.program above)).run.run
    session.world with
  | mk ending w =>
  rw [hran] at hwhole
  rw [hwhole]
  cases ending with
  | error e =>
      refine ⟨fun _ after h => h, fun v after h => ?_⟩
      have hvalue : (located pos (.error e : Except Stop Value)).mapError Failure.ofStop = .ok v :=
        (Prod.mk.inj h).1
      cases e <;> cases hvalue
  | ok v =>
      refine ⟨fun e after h => ?_, fun v' after h => ?_⟩
      · have hfailure : (.ok v : Except Failure Value) = .error e := (Prod.mk.inj h).1
        cases hfailure
      · cases h
        obtain ⟨hending, hworld⟩ :=
          run_alike (callsForget callBound) session.scope hsame hsecond w
        rw [Session.evaluateText_program _ hq, hany, mapError_located_map]
        have hnames := congrArg (World.names · session.scope) hworld
        have hobserved := congrArg World.observations hworld
        simp only [World.names_unplaced, World.observations_unplaced] at hnames hobserved
        refine ⟨congrArg (Session.mk · session.scope) hworld, hnames, hobserved,
          unplacedResult_map ?_ _ v⟩
        rw [unplacedResult_mapError, unplacedResult_mapError, hending]

/-- A text that ends in a comment, and one that calls the function declared before the comment. -/
theorem evaluateText_joined_comment :
    ∃ v after, (Session.start false .recording).evaluateText "let id = x => x // same" =
        (.ok v, after) ∧
      ((Session.start false .recording).evaluateText
          (joinTexts "let id = x => x // same" "harness.debug(id(1))")).2.unplaced =
        (after.evaluateText "harness.debug(id(1))").2.unplaced := by
  have hreads : (Program.read "let id = x => x // same".toList).isOk := by decide +kernel
  have hquiet : (Program.read "harness.debug(id(1))".toList).toOption.any (fun u =>
      u.form.parts.all fun statement => statement.declared?.isNone) = true := by decide +kernel
  have hruns :
      ((Session.start false .recording).evaluateText "let id = x => x // same").1.isOk := by
    decide +kernel
  cases hp : Program.read "let id = x => x // same".toList with
  | error e =>
      rw [hp] at hreads
      cases hreads
  | ok t =>
    cases hq : Program.read "harness.debug(id(1))".toList with
    | error e =>
        rw [hq] at hquiet
        cases hquiet
    | ok u =>
        rw [hq] at hquiet
        have hfunctions (statement) (h : statement ∈ u.form.parts) :
            statement.declared? = none := by
          simpa using List.all_eq_true.1 hquiet statement h
        cases hrun : (Session.start false .recording).evaluateText "let id = x => x // same" with
        | mk result after =>
        rw [hrun] at hruns
        cases result with
        | error e => cases hruns
        | ok v =>
            have hjoined := evaluateText_joined (Session.start false .recording) hp hq hfunctions
            exact ⟨v, after, rfl, (hjoined.2 v after hrun).1⟩

end VariantScript
