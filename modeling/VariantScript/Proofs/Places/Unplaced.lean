import VariantScript.Session

/-!
# What is left without places

Terms, faults and the functions among values remember places of the source text.  Here every place is
replaced by the start of the text and nothing else is changed: a term without a place stays without
one.  Two things are alike up to places if they are the same without them.

Data of the surrounding program are left as they are; a script only passes them on.
-/

namespace VariantScript

/-- Any place, replaced by the start of the text. -/
def Position.unplaced (_ : Position) : Position := .start

/-! ## Syntax -/

namespace Syntax

/-- The token without its place. -/
def Token.unplaced (t : Token) : Token := { t with pos := t.pos.unplaced }

@[simp] theorem Token.kind_unplaced (t : Token) : t.unplaced.kind = t.kind := rfl

@[simp] theorem Token.text_unplaced (t : Token) : t.unplaced.text = t.text := rfl

@[simp] theorem Token.pos_unplaced (t : Token) : t.unplaced.pos = t.pos.unplaced := rfl

/-- The spelling without its place. -/
def Spelling.unplaced (s : Spelling) : Spelling := { s with pos := s.pos.unplaced }

@[simp] theorem Spelling.text_unplaced (s : Spelling) : s.unplaced.text = s.text := rfl

@[simp] theorem Token.spelled_unplaced (t : Token) : t.unplaced.spelled = t.spelled.unplaced := rfl

/-- The name of a key without its place. -/
@[simp] def KeyName.unplaced : KeyName → KeyName
  | .bare name => .bare name.unplaced
  | .quoted literal => .quoted literal.unplaced
  | .malformed shown => .malformed shown
  | .broken b => .broken b

/-- The key without its places. -/
def Key.unplaced (k : Key) : Key := ⟨k.pos.map Position.unplaced, k.name.unplaced⟩

mutual
/-- The pattern without its places. -/
@[simp] def Pattern.unplaced : Pattern → Pattern
  | .name pos name => .name (pos.map Position.unplaced) name.unplaced
  | .array pos items => .array (pos.map Position.unplaced) (Pattern.unplacedAll items)
  | .record pos fields => .record (pos.map Position.unplaced) (PatternField.unplacedAll fields)
  | .unsupported label => .unsupported label
  | .broken b => .broken b

/-- The patterns without their places. -/
def Pattern.unplacedAll : List Pattern → List Pattern
  | [] => []
  | p :: ps => p.unplaced :: Pattern.unplacedAll ps

/-- The field of a pattern without its places. -/
@[simp] def PatternField.unplaced : PatternField → PatternField
  | .mk pos key pattern => .mk (pos.map Position.unplaced) key.unplaced pattern.unplaced
  | .broken b => .broken b

/-- The fields of a pattern without their places. -/
def PatternField.unplacedAll : List PatternField → List PatternField
  | [] => []
  | f :: fs => f.unplaced :: PatternField.unplacedAll fs
end

@[simp] theorem Pattern.unplacedAll_eq (ps : List Pattern) :
    Pattern.unplacedAll ps = ps.map Pattern.unplaced := by
  induction ps with
  | nil => rfl
  | cons p ps ih => rw [Pattern.unplacedAll, ih, List.map_cons]

@[simp] theorem PatternField.unplacedAll_eq (fs : List PatternField) :
    PatternField.unplacedAll fs = fs.map PatternField.unplaced := by
  induction fs with
  | nil => rfl
  | cons f fs ih => rw [PatternField.unplacedAll, ih, List.map_cons]

/-- The parameters without their places. -/
def Params.unplaced (ps : Params) : Params :=
  ⟨ps.pos.map Position.unplaced, ps.patterns.map Pattern.unplaced⟩

mutual
/-- The term without its places. -/
@[simp] def Term.unplaced : Term → Term
  | .node pos form => .node (pos.map Position.unplaced) form.unplaced

/-- The form without its places. -/
@[simp] def Form.unplaced : Form → Form
  | .program body => .program (Term.unplacedAll body)
  | .block body => .block (Term.unplacedAll body)
  | .declaration pattern value => .declaration pattern.unplaced value.unplaced
  | .returnNothing => .returnNothing
  | .returnValue value => .returnValue value.unplaced
  | .throwValue value => .throwValue value.unplaced
  | .ifThen condition yes => .ifThen condition.unplaced yes.unplaced
  | .ifThenElse condition yes no => .ifThenElse condition.unplaced yes.unplaced no.unplaced
  | .functionDeclaration name params body =>
      .functionDeclaration name.unplaced params.unplaced body.unplaced
  | .expressionStatement value => .expressionStatement value.unplaced
  | .number literal => .number literal.unplaced
  | .string literal => .string literal.unplaced
  | .truth flag => .truth flag
  | .reference name => .reference name.unplaced
  | .array items => .array (Term.unplacedAll items)
  | .record fields => .record (Field.unplacedAll fields)
  | .arrow params body => .arrow params.unplaced body.unplaced
  | .functionExpression params body => .functionExpression params.unplaced body.unplaced
  | .call callee args => .call callee.unplaced (Term.unplacedAll args)
  | .member receiver name => .member receiver.unplaced name.unplaced
  | .index receiver position => .index receiver.unplaced position.unplaced
  | .unary op opPos operand => .unary op opPos.unplaced operand.unplaced
  | .binary op opPos left right => .binary op opPos.unplaced left.unplaced right.unplaced
  | .compare op opPos left right => .compare op opPos.unplaced left.unplaced right.unplaced
  | .logical op left right => .logical op left.unplaced right.unplaced
  | .conditional condition yes no => .conditional condition.unplaced yes.unplaced no.unplaced
  | .illFormed problem => .illFormed problem

/-- The terms without their places. -/
def Term.unplacedAll : List Term → List Term
  | [] => []
  | t :: ts => t.unplaced :: Term.unplacedAll ts

/-- The field without its places. -/
@[simp] def Field.unplaced : Field → Field
  | .mk pos key value => .mk (pos.map Position.unplaced) key.unplaced value.unplaced
  | .broken b => .broken b

/-- The fields without their places. -/
def Field.unplacedAll : List Field → List Field
  | [] => []
  | f :: fs => f.unplaced :: Field.unplacedAll fs
end

@[simp] theorem Term.unplacedAll_eq (ts : List Term) :
    Term.unplacedAll ts = ts.map Term.unplaced := by
  induction ts with
  | nil => rfl
  | cons t ts ih => rw [Term.unplacedAll, ih, List.map_cons]

@[simp] theorem Field.unplacedAll_eq (fs : List Field) :
    Field.unplacedAll fs = fs.map Field.unplaced := by
  induction fs with
  | nil => rfl
  | cons f fs ih => rw [Field.unplacedAll, ih, List.map_cons]

@[simp] theorem Term.isBlock_unplaced (t : Term) : t.unplaced.isBlock = t.isBlock := by
  obtain ⟨pos, form⟩ := t
  cases form <;> rfl

@[simp] theorem Term.isExpressionStatement_unplaced (t : Term) :
    t.unplaced.isExpressionStatement = t.isExpressionStatement := by
  obtain ⟨pos, form⟩ := t
  cases form <;> rfl

end Syntax

/-! ## Values -/

open Syntax

/-- The function without the places of its text. -/
def Closure.unplaced (f : Closure) : Closure :=
  { f with params := f.params.map Pattern.unplaced, body := f.body.unplaced }

@[simp] theorem Closure.params_unplaced (f : Closure) :
    f.unplaced.params = f.params.map Pattern.unplaced := rfl

@[simp] theorem Closure.label_unplaced (f : Closure) (unnamed : String) :
    f.unplaced.label unnamed = f.label unnamed := rfl

mutual
/-- The value without the places in its functions. -/
@[simp] def Value.unplaced : Value → Value
  | .number id amount => .number id amount
  | .string text => .string text
  | .array id items => .array id (Value.unplacedAll items)
  | .record id slots => .record id (Value.unplacedSlots slots)
  | .variant id tag payload => .variant id tag payload.unplaced
  | .closure id function => .closure id function.unplaced
  | .builtin operation => .builtin operation
  | .foreign id data => .foreign id data

/-- The values without the places in their functions. -/
def Value.unplacedAll : List Value → List Value
  | [] => []
  | v :: vs => v.unplaced :: Value.unplacedAll vs

/-- The fields without the places in their functions. -/
def Value.unplacedSlots : List (String × Value) → List (String × Value)
  | [] => []
  | (name, v) :: slots => (name, v.unplaced) :: Value.unplacedSlots slots
end

@[simp] theorem Value.unplacedAll_eq (vs : List Value) :
    Value.unplacedAll vs = vs.map Value.unplaced := by
  induction vs with
  | nil => rfl
  | cons v vs ih => rw [Value.unplacedAll, ih, List.map_cons]

namespace Slots

/-- The fields without the places in their functions. -/
def unplaced (slots : Slots) : Slots :=
  slots.map fun (name, v) => (name, v.unplaced)

@[simp] theorem unplaced_eq (slots : Slots) : Value.unplacedSlots slots = slots.unplaced := by
  induction slots with
  | nil => rfl
  | cons slot slots ih => rw [Value.unplacedSlots, ih]; rfl

@[simp] theorem unplaced_nil : unplaced [] = [] := rfl

@[simp] theorem unplaced_cons (name : String) (v : Value) (slots : Slots) :
    unplaced ((name, v) :: slots) = (name, v.unplaced) :: unplaced slots := rfl

@[simp] theorem unplaced_append (slots slots' : Slots) :
    unplaced (slots ++ slots') = unplaced slots ++ unplaced slots' := by
  simp [unplaced]

@[simp] theorem names_unplaced (slots : Slots) : names (unplaced slots) = names slots := by
  simp [names, unplaced]

@[simp] theorem get?_unplaced (slots : Slots) (name : String) :
    get? (unplaced slots) name = (get? slots name).map Value.unplaced := by
  unfold get?
  induction slots with
  | nil => rfl
  | cons slot slots ih =>
      obtain ⟨k, v⟩ := slot
      rw [unplaced_cons, List.lookup_cons, List.lookup_cons, ih]
      split <;> rfl

@[simp] theorem has_unplaced (slots : Slots) (name : String) :
    has (unplaced slots) name = has slots name := by
  simp [has]

@[simp] theorem set_unplaced (name : String) (v : Value) (slots : Slots) :
    set name v.unplaced (unplaced slots) = unplaced (set name v slots) := by
  induction slots with
  | nil => rfl
  | cons slot slots ih =>
      obtain ⟨k, u⟩ := slot
      simp only [unplaced_cons, set]
      split
      · rfl
      · rw [ih, unplaced_cons]

end Slots

/-! ## Faults -/

/-- The cause without the places in the values that it names. -/
@[simp] def Cause.unplaced : Cause → Cause
  | .expectsNumbers context got => .expectsNumbers context got.unplaced
  | .expectsBoolean context got => .expectsBoolean context got.unplaced
  | .cannotAdd left right => .cannotAdd left.unplaced right.unplaced
  | .cannotCompare left op right => .cannotCompare left.unplaced op right.unplaced
  | .notAnArray got => .notAnArray got.unplaced
  | .notARecord got => .notARecord got.unplaced
  | .noProperty name receiver => .noProperty name receiver.unplaced
  | .indexNotWhole got => .indexNotWhole got.unplaced
  | .keyNotString got => .keyNotString got.unplaced
  | .cannotIndex receiver => .cannotIndex receiver.unplaced
  | .notAFunction got => .notAFunction got.unplaced
  | .thrown value => .thrown value.unplaced
  | cause => cause

/-- The fault without its place. -/
def Fault.unplaced (f : Fault) : Fault :=
  ⟨f.cause.unplaced, f.location.map Position.unplaced⟩

theorem Fault.unplaced_locate (pos : Option Position) (f : Fault) :
    (f.locate pos).unplaced = f.unplaced.locate (pos.map Position.unplaced) := by
  obtain ⟨cause, location⟩ := f
  cases location <;> rfl

/-- The early end of an evaluation without places. -/
@[simp] def Stop.unplaced : Stop → Stop
  | .fault f => .fault f.unplaced
  | .returned value => .returned value.unplaced
  | .tooDeep => .tooDeep
  | .breakdown b => .breakdown b

/-! ## Worlds -/

/-- The scope without the places in its values. -/
def Scope.unplaced (scope : Scope) : Scope :=
  { scope with vars := scope.vars.unplaced }

/-- The event without the places in its value. -/
@[simp] def Event.unplaced : Event → Event
  | .started length => .started length
  | .observed value => .observed value.unplaced
  | .logged value => .logged value.unplaced
  | .finished value => .finished value.unplaced
  | .failed message => .failed message

/-- The world without the places in its values. -/
def World.unplaced (w : World) : World :=
  { w with scopes := w.scopes.map Scope.unplaced, events := w.events.map Event.unplaced }

@[simp] theorem World.legacy_unplaced (w : World) : w.unplaced.legacy = w.legacy := rfl

@[simp] theorem World.observer_unplaced (w : World) : w.unplaced.observer = w.observer := rfl

@[simp] theorem World.nextSerial_unplaced (w : World) : w.unplaced.nextSerial = w.nextSerial := rfl

@[simp] theorem World.names_unplaced (w : World) (s : ScopeId) :
    w.unplaced.names s = w.names s := by
  simp only [World.names, World.unplaced, Array.getElem?_map]
  cases w.scopes[s.index]? with
  | none => rfl
  | some scope => exact Slots.names_unplaced scope.vars

@[simp] theorem World.observations_unplaced (w : World) :
    w.unplaced.observations = w.observations.map Value.unplaced := by
  rw [World.observations, World.observations, World.unplaced, Array.toList_map,
    List.filterMap_map, List.map_filterMap]
  refine congrArg (List.filterMap · w.events.toList) (funext fun e => ?_)
  cases e <;> rfl

/-! ## Sessions -/

/-- The breakdown of a run without the places in its value. -/
@[simp] def Crash.unplaced : Crash → Crash
  | .breakdown b => .breakdown b
  | .escapedReturn value => .escapedReturn value.unplaced

/-- The failure of a run without its place; an error of syntax keeps its own. -/
@[simp] def Failure.unplaced : Failure → Failure
  | .syntaxError e => .syntaxError e
  | .fault f => .fault f.unplaced
  | .tooDeep => .tooDeep
  | .crash c => .crash c.unplaced

theorem Failure.unplaced_ofStop (e : Stop) :
    (Failure.ofStop e).unplaced = Failure.ofStop e.unplaced := by
  cases e <;> rfl

/-- The session without the places in its values. -/
def Session.unplaced (s : Session) : Session :=
  { s with world := s.world.unplaced }

end VariantScript
