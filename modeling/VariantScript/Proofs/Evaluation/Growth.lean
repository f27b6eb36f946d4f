import VariantScript.Evaluation.Evaluate
import VariantScript.Proofs.Evaluation.Endings

/-!
# What operations do to the world

Most operations only take new identities.  The others define names in the scope that they are given,
show a value to the observer, or open a scope.  None of them changes or removes what was there, in
whatever world, and however they end.
-/

namespace VariantScript

open Syntax

/-! ## Names that are defined -/

mutual

/-- The names that a pattern binds, in order. -/
def Syntax.Pattern.names : Pattern → List String
  | .name _ name => [name.text]
  | .array _ items => Pattern.namesOfAll items
  | .record _ fields => PatternField.namesOfAll fields
  | .unsupported _ | .broken _ => []

/-- The names that patterns bind one after the other. -/
def Syntax.Pattern.namesOfAll : List Pattern → List String
  | [] => []
  | p :: ps => p.names ++ Pattern.namesOfAll ps

/-- The names that the fields of a pattern bind one after the other. -/
def Syntax.PatternField.namesOfAll : List PatternField → List String
  | [] => []
  | .mk _ _ pattern :: fs => pattern.names ++ PatternField.namesOfAll fs
  | .broken _ :: fs => PatternField.namesOfAll fs

end

/-- The name of the function that a statement declares. -/
def Syntax.Term.declared? : Term → Option String
  | .node _ (.functionDeclaration name _ _) => some name.text
  | _ => none

/-! ## Worlds -/

/-- The value that an event shows. -/
def Event.shown? : Event → Option Value
  | observed value | logged value => some value
  | _ => none

/-- A world that keeps all there was, and in which one scope may have gained some names at its end,
and values may have been shown. -/
structure World.Gains (own : ScopeId) (names : List String) (shown : Value → Prop) (w w' : World) :
    Prop where
  legacy : w'.legacy = w.legacy
  observer : w'.observer = w.observer
  scopes (i : Nat) (scope : Scope) (hscope : w.scopes[i]? = some scope) :
    ∃ added, w'.scopes[i]? = some { scope with vars := scope.vars ++ added } ∧
      (added.map Prod.fst).Sublist (if i = own.index then names else [])
  events : ∃ added, w'.events.toList = w.events.toList ++ added ∧
    ∀ e ∈ added, ∃ v, e.shown? = some v ∧ shown v

namespace World.Gains

variable {own own' : ScopeId} {names names' : List String} {shown shown' : Value → Prop}
  {w w' w'' : World}

theorem refl (w : World) : w.Gains own names shown w :=
  ⟨rfl, rfl, fun _ _ hscope => ⟨[], by simpa using hscope, by simp⟩, [], by simp, by simp⟩

theorem trans (h : w.Gains own names shown w') (h' : w'.Gains own names' shown w'') :
    w.Gains own (names ++ names') shown w'' := by
  refine ⟨h'.legacy.trans h.legacy, h'.observer.trans h.observer, fun i scope hscope => ?_, ?_⟩
  · obtain ⟨added, hadded, hnames⟩ := h.scopes i scope hscope
    obtain ⟨added', hadded', hnames'⟩ := h'.scopes i _ hadded
    refine ⟨added ++ added', by simpa using hadded', ?_⟩
    rw [List.map_append]
    split at hnames <;> rename_i hown
    · rw [if_pos hown] at hnames' ⊢
      exact hnames.append hnames'
    · rw [if_neg hown] at hnames' ⊢
      exact hnames.append hnames'
  · obtain ⟨added, hadded, hshown⟩ := h.events
    obtain ⟨added', hadded', hshown'⟩ := h'.events
    refine ⟨added ++ added', by rw [hadded', hadded, List.append_assoc], fun e he => ?_⟩
    exact (List.mem_append.1 he).elim (hshown e) (hshown' e)

theorem mono (h : w.Gains own names shown w') (hnames : names.Sublist names')
    (hshown : ∀ v, shown v → shown' v) : w.Gains own names' shown' w' := by
  refine ⟨h.legacy, h.observer, fun i scope hscope => ?_, ?_⟩
  · obtain ⟨added, hadded, hsublist⟩ := h.scopes i scope hscope
    refine ⟨added, hadded, hsublist.trans ?_⟩
    split
    · exact hnames
    · exact List.Sublist.refl _
  · obtain ⟨added, hadded, hall⟩ := h.events
    refine ⟨added, hadded, fun e he => ?_⟩
    obtain ⟨v, hv, hvshown⟩ := hall e he
    exact ⟨v, hv, hshown v hvshown⟩

/-- A scope that gains no names is as it was. -/
theorem kept (h : w.Gains own names shown w') {i : Nat} {scope : Scope}
    (hscope : w.scopes[i]? = some scope) (hnames : i = own.index → names = []) :
    w'.scopes[i]? = some scope := by
  obtain ⟨added, hadded, hsublist⟩ := h.scopes i scope hscope
  have hnil : added = [] := by
    split at hsublist
    · rename_i hown
      rw [hnames hown] at hsublist
      simpa using hsublist
    · simpa using hsublist
  simpa [hnil] using hadded

/-- Names that a new scope gains are none that an old one gains. -/
theorem of_pushed {scope : Scope}
    (h : { w with scopes := w.scopes.push scope }.Gains ⟨w.scopes.size⟩ names shown w')
    (own : ScopeId) : w.Gains own [] shown w' := by
  refine ⟨h.legacy, h.observer, fun i old hold => ⟨[], ?_, by simp⟩, h.events⟩
  obtain ⟨hi, hget⟩ := Array.getElem?_eq_some_iff.1 hold
  have hpushed : (w.scopes.push scope)[i]? = some old := by
    rw [Array.getElem?_push_lt hi, hget]
  have hkept := h.kept hpushed fun (hnew : i = w.scopes.size) => absurd hnew (by omega)
  simpa using hkept

theorem of_serial {next : Nat} : w.Gains own [] shown { w with nextSerial := next } :=
  ⟨rfl, rfl, fun _ _ hscope => ⟨[], by simpa using hscope, by simp⟩, [], by simp, by simp⟩

theorem noted {e : Event} {v : Value} (he : e.shown? = some v) (hv : shown v) :
    w.Gains own [] shown (w.note e) :=
  ⟨rfl, rfl, fun _ _ hscope => ⟨[], by simpa [World.note] using hscope, by simp⟩, [e],
    by simp [World.note], by simpa using ⟨v, he, hv⟩⟩

theorem defined (own : ScopeId) (name : String) (v : Value) :
    w.Gains own [name] shown { w with scopes := w.scopes.modify own.index fun scope =>
      { scope with vars := scope.vars ++ [(name, v)] } } := by
  refine ⟨rfl, rfl, fun i scope hscope => ?_, [], by simp, by simp⟩
  dsimp only
  rw [Array.getElem?_modify, hscope]
  by_cases hown : own.index = i
  · exact ⟨[(name, v)], by simp [hown], by simp [hown]⟩
  · exact ⟨[], by simp [hown], by simp⟩

theorem toExtends (h : w.Gains own names shown w') : w.Extends w' := by
  intro i scope hscope
  obtain ⟨added, hadded, -⟩ := h.scopes i scope hscope
  exact ⟨_, hadded, rfl, rfl, List.prefix_append _ _⟩

end World.Gains

/-! ## Evaluations -/

namespace Eval

variable {α β : Type}

/-- An evaluation that only takes new identities. -/
def Quiet (act : Eval α) : Prop :=
  ∀ w, ∃ next, (act.run.run w).2 = { w with nextSerial := next }

/-- An evaluation that may only define names in a scope and show values. -/
def Affects (own : ScopeId) (names : List String) (shown : Value → Prop) (act : Eval α)
    (w : World) : Prop :=
  w.Gains own names shown (act.run.run w).2

variable {own own' : ScopeId} {names names' : List String} {shown shown' : Value → Prop}
  {act : Eval α} {k : α → Eval β} {w : World}

theorem quiet_pure (x : α) : Quiet (pure x : Eval α) :=
  fun w => ⟨w.nextSerial, rfl⟩

theorem quiet_throw (e : Stop) : Quiet (throw e : Eval α) :=
  fun w => ⟨w.nextSerial, rfl⟩

theorem Quiet.bind (h : Quiet act) (hk : ∀ x, Quiet (k x)) : Quiet (act >>= k) := by
  intro w
  rw [run_bind]
  obtain ⟨next, hnext⟩ := h w
  generalize act.run.run w = r at hnext
  obtain ⟨result, w'⟩ := r
  cases hnext
  cases result with
  | ok x => exact hk x _
  | error e => exact ⟨next, rfl⟩

theorem Quiet.get_bind {k : World → Eval β} (hk : ∀ w, Quiet (k w)) : Quiet (get >>= k) :=
  fun w => hk w w

theorem Quiet.affects (h : Quiet act) : Affects own [] shown act w := by
  obtain ⟨next, hnext⟩ := h w
  unfold Affects
  rw [hnext]
  exact .of_serial

theorem Affects.mono (h : Affects own names shown act w) (hnames : names.Sublist names')
    (hshown : ∀ v, shown v → shown' v) : Affects own names' shown' act w :=
  World.Gains.mono h hnames hshown

theorem affects_pure {x : α} : Affects own names shown (pure x : Eval α) w :=
  .refl w

theorem Affects.bind (h : Affects own names shown act w)
    (next : ∀ x w', Gives act w x w' → Affects own names' shown (k x) w') :
    Affects own (names ++ names') shown (act >>= k) w := by
  unfold Affects at h ⊢
  rw [run_bind]
  generalize hrun : act.run.run w = r at h
  obtain ⟨result, w'⟩ := r
  cases result with
  | ok x => exact h.trans (next x w' hrun)
  -- Without a value nothing is added to what the first evaluation did.
  | error e => exact h.mono (List.sublist_append_left _ _) fun _ hv => hv

theorem Affects.bind_quiet (h : Affects own names shown act w) (hk : ∀ x, Quiet (k x)) :
    Affects own names shown (act >>= k) w := by
  simpa using h.bind fun x _ _ => (hk x).affects

theorem Quiet.bind_affects (h : Quiet act)
    (next : ∀ x w', Gives act w x w' → Affects own names shown (k x) w') :
    Affects own names shown (act >>= k) w := by
  have hact : Affects own [] shown act w := h.affects
  simpa using hact.bind next

theorem Affects.locate (h : Affects own names shown act w) (pos : Option Position) :
    Affects own names shown (locate pos act) w := by
  unfold Affects
  rw [run_locate]
  exact h

theorem affects_get_bind {k : World → Eval β} (h : Affects own names shown (k w) w) :
    Affects own names shown (get >>= k) w :=
  h

/-- What is done behind the opening of a scope, and in that scope, leaves older scopes alone. -/
theorem affects_openScope_bind {parent : Option ScopeId} {isCall : Bool} {k : ScopeId → Eval β}
    (h : ∀ inner w', Gives (openScope parent isCall) w inner w' →
      Affects inner names shown (k inner) w') :
    Affects own [] shown (openScope parent isCall >>= k) w :=
  World.Gains.of_pushed (h _ _ rfl) own

/-! ## Operations that are quiet -/

theorem quiet_breakDown (b : Breakdown) : Quiet (breakDown b : Eval α) :=
  quiet_throw _

theorem quiet_fail (cause : Cause) : Quiet (fail cause : Eval α) := by
  unfold fail
  split
  · exact quiet_breakDown _
  · exact quiet_throw _

theorem quiet_ofExcept (e : Except Cause α) : Quiet (ofExcept e) := by
  cases e with
  | ok x => exact quiet_pure x
  | error cause => exact quiet_fail cause

theorem quiet_freshIdentity : Quiet freshIdentity :=
  fun w => ⟨w.nextSerial + 1, rfl⟩

theorem quiet_makeNumber (x : Float) : Quiet (makeNumber x) :=
  quiet_freshIdentity.bind fun _ => quiet_pure _

theorem quiet_makeArray (items : List Value) : Quiet (makeArray items) :=
  quiet_freshIdentity.bind fun _ => quiet_pure _

theorem quiet_makeRecord (slots : Slots) : Quiet (makeRecord slots) :=
  quiet_freshIdentity.bind fun _ => quiet_pure _

theorem quiet_makeClosure (f : Closure) : Quiet (makeClosure f) :=
  quiet_freshIdentity.bind fun _ => quiet_pure _

theorem quiet_makeList (elements : List Value) : Quiet (makeList elements) :=
  fun w => ⟨(Value.listFrom w.nextSerial elements).2, rfl⟩

theorem quiet_resolve (s : ScopeId) (name : String) : Quiet (resolve s name) := by
  refine .get_bind fun w => ?_
  split
  · exact quiet_pure _
  · exact quiet_fail _

theorem quiet_calculate (op : BinaryOp) (x y : Float) : Quiet (calculate op x y) := by
  cases op with
  | add | subtract | multiply => exact quiet_makeNumber _
  | divide =>
      unfold calculate
      dsimp only
      split
      · exact quiet_fail _
      · exact quiet_makeNumber _
  | remainder =>
      unfold calculate
      dsimp only
      split
      · exact quiet_fail _
      · split
        · exact quiet_makeNumber _
        · exact quiet_breakDown _
  | unknown text => exact quiet_fail _

theorem quiet_applyBinary (op : BinaryOp) (left right : Value) :
    Quiet (applyBinary op left right) := by
  unfold applyBinary
  split
  · split
    · exact quiet_calculate _ _ _
    · exact quiet_pure _
    · exact quiet_fail _
  · exact (quiet_ofExcept _).bind fun _ => (quiet_ofExcept _).bind fun _ => quiet_calculate _ _ _

theorem quiet_getField (receiver : Value) (name : String) : Quiet (getField receiver name) := by
  unfold getField
  split
  · split
    · exact quiet_pure _
    · exact quiet_fail _
  · split
    · exact quiet_makeNumber _
    · exact quiet_fail _
  · split
    · exact quiet_makeNumber _
    · exact quiet_fail _
  · exact quiet_fail _

theorem quiet_getIndex (receiver index : Value) : Quiet (getIndex receiver index) := by
  unfold getIndex
  split
  · refine (quiet_ofExcept _).bind fun i => ?_
    split
    · exact quiet_pure _
    · exact quiet_fail _
  · refine (quiet_ofExcept _).bind fun i => ?_
    split
    · exact quiet_pure _
    · exact quiet_fail _
  · split
    · exact quiet_getField _ _
    · exact quiet_fail _
  · exact quiet_fail _

theorem quiet_decodeString (literal : String) : Quiet (decodeString literal) := by
  refine (quiet_ofExcept _).bind fun data => ?_
  split
  · exact quiet_pure _
  · exact quiet_breakDown _

theorem quiet_decodeName (literal : String) : Quiet (decodeName literal) := by
  refine (quiet_ofExcept _).bind fun data => ?_
  split
  · exact quiet_pure _
  · split
    · exact quiet_breakDown _
    · exact quiet_pure _

theorem quiet_decodeKey (key : Key) : Quiet key.decode := by
  unfold Key.decode
  split
  · exact quiet_pure _
  · exact quiet_decodeName _
  · exact quiet_fail _
  · exact quiet_breakDown _

/-! ## Operations that are not -/

theorem affects_define (s : ScopeId) (name : String) (v : Value) :
    Affects s [name] shown (define s name v) w := by
  refine affects_get_bind ?_
  split
  · exact affects_pure
  · split
    · exact (quiet_fail _).affects.mono (List.nil_sublist _) fun _ hv => hv
    · exact World.Gains.defined s name v

theorem affects_observe {v : Value} (hv : shown v) : Affects own [] shown (observe v) w := by
  have hnote (e : Event) (he : e.shown? = some v) :
      Affects own [] shown (modify fun w => w.note e : Eval Unit) w :=
    World.Gains.noted he hv
  refine affects_get_bind ?_
  split
  · exact hnote _ rfl
  · exact hnote _ rfl
  · exact (hnote _ rfl).bind_quiet fun _ => quiet_fail _

/-- A built-in operation shows at most the value that it is called with. -/
theorem affects_callBuiltin (operation : Builtin) (args : List Value)
    (hshown : ∀ v, operation = .debug → args = [v] → shown v) :
    Affects own [] shown (callBuiltin operation args) w := by
  unfold callBuiltin
  split
  · rename_i arg
    refine Affects.bind_quiet ?_ fun v => quiet_ofExcept _
    cases operation with
    | split =>
        refine Quiet.affects ((quiet_ofExcept _).bind fun pair => ?_)
        split
        · exact quiet_makeList _
        · exact quiet_fail _
    | debug => exact (affects_observe (hshown arg rfl rfl)).bind_quiet fun _ => quiet_pure _
    | equal =>
        exact Quiet.affects ((quiet_ofExcept _).bind fun pair => .get_bind fun w => quiet_pure _)
  · exact (quiet_fail _).affects

mutual

theorem affects_bindPattern (s : ScopeId) (p : Pattern) (v : Value) (w : World) :
    Affects s p.names shown (bindPattern s p v) w := by
  cases p with
  | name pos name =>
      unfold bindPattern Pattern.names
      exact affects_define s name.text v
  | array pos items =>
      unfold bindPattern Pattern.names
      split
      · split
        · exact (quiet_fail _).affects.mono (List.nil_sublist _) fun _ hv => hv
        · exact affects_bindItems s items _ w
      · exact (quiet_fail _).affects.mono (List.nil_sublist _) fun _ hv => hv
  | record pos fields =>
      unfold bindPattern Pattern.names
      split
      · exact affects_bindFields s fields _ w
      · exact (quiet_fail _).affects.mono (List.nil_sublist _) fun _ hv => hv
  | unsupported label =>
      unfold bindPattern Pattern.names
      exact (quiet_fail _).affects
  | broken b =>
      unfold bindPattern Pattern.names
      exact (quiet_breakDown b).affects

theorem affects_bindItems (s : ScopeId) (ps : List Pattern) (vs : List Value) (w : World) :
    Affects s (Pattern.namesOfAll ps) shown (bindItems s ps vs) w := by
  match ps, vs with
  | [], _ =>
      unfold bindItems
      exact affects_pure
  | _ :: _, [] =>
      unfold bindItems
      exact affects_pure
  | p :: ps, v :: vs =>
      unfold bindItems Pattern.namesOfAll
      exact (affects_bindPattern s p v w).bind fun _ w' _ => affects_bindItems s ps vs w'

theorem affects_bindFields (s : ScopeId) (fs : List PatternField) (slots : Slots) (w : World) :
    Affects s (PatternField.namesOfAll fs) shown (bindFields s fs slots) w := by
  match fs with
  | [] =>
      unfold bindFields
      exact affects_pure
  | .broken b :: fs =>
      unfold bindFields
      exact (quiet_breakDown b).affects.mono (List.nil_sublist _) fun _ hv => hv
  | .mk pos key pattern :: fs =>
      unfold bindFields PatternField.namesOfAll
      refine (quiet_decodeKey key).bind_affects fun name w' _ => ?_
      dsimp only
      split
      · exact (affects_bindPattern s pattern _ w').bind fun _ w'' _ =>
          affects_bindFields s fs slots w''
      -- A missing field is a fault, so the others are not bound; the statement covers both.
      · have missing : Affects s pattern.names shown (fail (.keyNotFound name) : Eval Unit) w' :=
          (quiet_fail _).affects.mono (List.nil_sublist _) fun _ hv => hv
        exact missing.bind fun _ w'' _ => affects_bindFields s fs slots w''

end

theorem affects_hoist (s : ScopeId) (body : List Term) (w : World) :
    Affects s (body.filterMap Term.declared?) shown (hoist s body) w := by
  induction body generalizing w with
  | nil =>
      unfold hoist
      exact affects_pure
  | cons t body ih =>
      unfold hoist
      split
      · rename_i heq
        cases heq
      · rename_i heq
        obtain ⟨rfl, rfl⟩ := List.cons.inj heq
        change Affects s ([_] ++ body.filterMap Term.declared?) shown _ w
        exact (quiet_makeClosure _).bind_affects fun f w' _ =>
          (affects_define s _ f).bind fun _ w'' _ => ih w''
      · exact (quiet_breakDown _).affects.mono (List.nil_sublist _) fun _ hv => hv
      · rename_i hdeclaration heq
        obtain ⟨rfl, rfl⟩ := List.cons.inj heq
        refine (ih w).mono (List.Sublist.filterMap _ (List.sublist_cons_self _ _)) fun _ hv => hv

end Eval

end VariantScript
