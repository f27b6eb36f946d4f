import VariantScript.Proofs.Evaluation.Operations

/-!
# Who is to blame for a stop

An evaluation can stop because of the values that it meets, or because a tree has no meaning where it
is evaluated.  `Stop.IsOfValues` says the former.  Of a world only one thing is asked here: its
functions come from texts.  Its scopes may hold any other values, foreign ones and lists that were put
together badly among them.  `Eval.Keeps` says that an evaluation leaves such a world behind and stops
at values only; it is shown here for the operations and for the binding of patterns.
-/

namespace VariantScript

open Syntax

/-- A value whose functions come from texts. -/
inductive Value.IsWritten : Value → Prop where
  | number {id : Identity} {x : Float} : IsWritten (.number id x)
  | string {text : String} : IsWritten (.string text)
  | array {id : Identity} {items : List Value} (hitems : ∀ v ∈ items, IsWritten v) :
      IsWritten (.array id items)
  | record {id : Identity} {slots : List (String × Value)}
      (hslots : ∀ slot ∈ slots, IsWritten slot.2) : IsWritten (.record id slots)
  | variant {id : Identity} {tag : Tag} {payload : Value} (hpayload : IsWritten payload) :
      IsWritten (.variant id tag payload)
  | closure {id : Identity} {f : Closure} (hf : f.IsWritten) : IsWritten (.closure id f)
  | builtin {operation : Builtin} : IsWritten (.builtin operation)
  | foreign {id : Identity} {data : Host} : IsWritten (.foreign id data)

/-- A world in which every function that a name stands for comes from a text. -/
def World.IsWritten (w : World) : Prop :=
  ∀ (i : Nat) (scope : Scope), w.scopes[i]? = some scope →
    ∀ slot ∈ scope.vars, slot.2.IsWritten

/-- A cause that lies in the values and names of a script: not in the shape of its tree, and in a
literal only if that is spelled as a string and denotes none. -/
def Cause.IsOfValues : Cause → Prop
  | malformedKey _ | unsupportedPattern _ | unsupportedUnary _ | unknownOperator _
  | unknownComparison _ | unknownNode _ | unhandledToken _ _ => False
  | invalidString literal =>
      (Terminal.token .string).Takes literal.toList ∧ Text.Quoted.decode? literal.toList = none
  | _ => True

/-- A stop for which values are to blame.  A breakdown is a remainder that does not exist or comes
from a value that cannot be shown where a fault is to name it. -/
def Stop.IsOfValues : Stop → Prop
  | .fault f => f.cause.IsOfValues
  | .breakdown b => b = .noRemainder ∨ ∃ v : Value, v.defect? = some b
  | .returned v => v.IsWritten
  | .tooDeep => True

/-! ## Values -/

namespace Value.IsWritten

theorem unit : (Value.unit).IsWritten :=
  .array (by simp)

theorem truth (flag : Bool) : (Value.truth flag).IsWritten := by
  cases flag <;> exact .variant unit

theorem items {id : Identity} {vs : List Value} (h : (Value.array id vs).IsWritten) :
    ∀ v ∈ vs, v.IsWritten := by
  cases h with
  | array hitems => exact hitems

theorem slots {id : Identity} {slots : List (String × Value)}
    (h : (Value.record id slots).IsWritten) : ∀ slot ∈ slots, slot.2.IsWritten := by
  cases h with
  | record hslots => exact hslots

theorem payload {id : Identity} {tag : Tag} {payload : Value}
    (h : (Value.variant id tag payload).IsWritten) : payload.IsWritten := by
  cases h with
  | variant hpayload => exact hpayload

theorem function {id : Identity} {f : Closure} (h : (Value.closure id f).IsWritten) :
    f.IsWritten := by
  cases h with
  | closure hf => exact hf

theorem listFrom (next : Nat) {vs : List Value} (h : ∀ v ∈ vs, v.IsWritten) :
    (Value.listFrom next vs).1.IsWritten := by
  induction vs with
  | nil => exact .variant unit
  | cons v vs ih =>
      have hrest := ih fun u hu => h u (.tail _ hu)
      exact .variant (.array (by simpa using ⟨h v (.head _), hrest⟩))

theorem hereditary : Value.Hereditary Value.IsWritten :=
  ⟨items, slots, payload⟩

end Value.IsWritten

/-! ## Worlds -/

namespace World.IsWritten

variable {w w' : World}

theorem lookup? (h : w.IsWritten) {s : ScopeId} {name : String} {v : Value}
    (hlookup : w.lookup? s name = some v) : v.IsWritten := by
  induction hindex : s.index using Nat.strongRecOn generalizing s with
  | ind n ih =>
      rw [World.lookup?] at hlookup
      split at hlookup
      · cases hlookup
      · rename_i scope hscope
        split at hlookup
        · rename_i value hget
          cases hlookup
          exact h _ _ hscope _ (Slots.mem_of_get? hget)
        · split at hlookup
          · rename_i parent _
            split at hlookup
            · rename_i hlt
              exact ih parent.index (hindex ▸ hlt) hlookup rfl
            · cases hlookup
          · cases hlookup

theorem of_scopes (h : w.IsWritten) (hscopes : w'.scopes = w.scopes) : w'.IsWritten := by
  unfold World.IsWritten
  rw [hscopes]
  exact h

theorem pushed {scope : Scope} (h : w.IsWritten) (hscopes : w'.scopes = w.scopes.push scope)
    (hvars : ∀ slot ∈ scope.vars, slot.2.IsWritten) : w'.IsWritten := by
  intro i scope' hscope'
  rw [hscopes, Array.getElem?_push] at hscope'
  split at hscope'
  · cases hscope'
    exact hvars
  · exact h i scope' hscope'

theorem defined (h : w.IsWritten) (s : ScopeId) (name : String) {v : Value} (hv : v.IsWritten)
    (hscopes : w'.scopes = w.scopes.modify s.index fun scope =>
      { scope with vars := scope.vars ++ [(name, v)] }) : w'.IsWritten := by
  intro i scope hscope slot hslot
  rw [hscopes, Array.getElem?_modify] at hscope
  split at hscope
  · obtain ⟨old, hold, rfl⟩ := Option.map_eq_some_iff.1 hscope
    rcases List.mem_append.1 hslot with hslot | hslot
    · exact h i old hold slot hslot
    · rw [List.mem_singleton.1 hslot]
      exact hv
  · exact h i scope hscope slot hslot

end World.IsWritten

/-! ## Evaluations -/

namespace Eval

variable {α β : Type}

/-- An end that is good if it is a value, and for which values are to blame if it is none. -/
inductive Blameless (good : α → Prop) : Except Stop α → Prop where
  | value {x : α} (hx : good x) : Blameless good (.ok x)
  | stop {e : Stop} (he : e.IsOfValues) : Blameless good (.error e)

/-- An evaluation that leaves only functions from texts behind and ends without blame. -/
def Keeps (good : α → Prop) (act : Eval α) : Prop :=
  ∀ w : World, w.IsWritten →
    (act.run.run w).2.IsWritten ∧ Blameless good (act.run.run w).1

variable {good : α → Prop} {next : β → Prop} {act : Eval α} {k : α → Eval β}

theorem keeps_pure {x : α} (hx : good x) : Keeps good (pure x : Eval α) :=
  fun _ hw => ⟨hw, .value hx⟩

theorem keeps_throw {e : Stop} (he : e.IsOfValues) : Keeps good (throw e : Eval α) :=
  fun _ hw => ⟨hw, .stop he⟩

theorem Keeps.bind (h : Keeps good act) (hnext : ∀ x, good x → Keeps next (k x)) :
    Keeps next (act >>= k) := by
  intro w hw
  rw [run_bind]
  obtain ⟨hworld, hend⟩ := h w hw
  generalize act.run.run w = r at hworld hend
  obtain ⟨result, w'⟩ := r
  cases hend with
  | value hx => exact hnext _ hx w' hworld
  | stop he => exact ⟨hworld, .stop he⟩

theorem keeps_get_bind {k : World → Eval β} (h : ∀ w : World, w.IsWritten → Keeps next (k w)) :
    Keeps next (get >>= k) :=
  fun w hw => h w hw w hw

theorem keeps_modify {f : World → World} (hf : ∀ w : World, w.IsWritten → (f w).IsWritten) :
    Keeps (fun _ => True) (modify f : Eval Unit) :=
  fun w hw => ⟨hf w hw, .value trivial⟩

theorem defect_of_cause {cause : Cause} {b : Breakdown} (h : cause.defect? = some b) :
    ∃ v : Value, v.defect? = some b := by
  unfold Cause.defect? at h
  split at h
  case h_10 left right | h_11 left _ right =>
    cases hleft : left.defect? with
    | some b' => exact ⟨left, by simpa [hleft] using h⟩
    | none => exact ⟨right, by simpa [hleft] using h⟩
  case h_12 => cases h
  all_goals exact ⟨_, h⟩

theorem keeps_fail {cause : Cause} (hcause : cause.IsOfValues) :
    Keeps good (fail cause : Eval α) := by
  unfold fail
  cases hdefect : cause.defect? with
  | some b => exact keeps_throw (Or.inr (defect_of_cause hdefect))
  | none => exact keeps_throw hcause

theorem keeps_ofExcept {e : Except Cause α} (hok : ∀ x, e = .ok x → good x)
    (herror : ∀ c, e = .error c → c.IsOfValues) : Keeps good (ofExcept e) := by
  cases e with
  | ok x => exact keeps_pure (hok x rfl)
  | error c => exact keeps_fail (herror c rfl)

/-- Placing a fault does not change who is to blame for it. -/
theorem Blameless.located {r : Except Stop α} (h : Blameless good r) (pos : Option Position) :
    Blameless good (located pos r) := by
  cases h with
  | value hx => exact .value hx
  | @stop e he =>
      cases e with
      | fault f =>
          refine .stop ?_
          show (f.locate pos).cause.IsOfValues
          rw [cause_locate]
          exact he
      | returned | tooDeep | breakdown => exact .stop he

theorem Keeps.locate (h : Keeps good act) (pos : Option Position) :
    Keeps good (locate pos act) := by
  intro w hw
  rw [run_locate]
  exact ⟨(h w hw).1, (h w hw).2.located pos⟩

/-! ## New objects, scopes and names -/

theorem keeps_freshIdentity : Keeps (fun _ => True) freshIdentity :=
  fun _ hw => ⟨hw.of_scopes rfl, .value trivial⟩

theorem keeps_makeNumber (x : Float) : Keeps Value.IsWritten (makeNumber x) :=
  keeps_freshIdentity.bind fun _ _ => keeps_pure .number

theorem keeps_makeArray {items : List Value} (h : ∀ v ∈ items, v.IsWritten) :
    Keeps Value.IsWritten (makeArray items) :=
  keeps_freshIdentity.bind fun _ _ => keeps_pure (.array h)

theorem keeps_makeRecord {slots : Slots} (h : ∀ slot ∈ slots, slot.2.IsWritten) :
    Keeps Value.IsWritten (makeRecord slots) :=
  keeps_freshIdentity.bind fun _ _ => keeps_pure (.record h)

theorem keeps_makeClosure {f : Closure} (h : f.IsWritten) :
    Keeps Value.IsWritten (makeClosure f) :=
  keeps_freshIdentity.bind fun _ _ => keeps_pure (.closure h)

theorem keeps_makeList {vs : List Value} (h : ∀ v ∈ vs, v.IsWritten) :
    Keeps Value.IsWritten (makeList vs) :=
  fun w hw => ⟨hw.of_scopes rfl, .value (.listFrom w.nextSerial h)⟩

theorem keeps_openScope (parent : Option ScopeId) (isCall : Bool) :
    Keeps (fun _ => True) (openScope parent isCall) :=
  fun _ hw => ⟨hw.pushed rfl (by simp), .value trivial⟩

theorem keeps_define (s : ScopeId) (name : String) {v : Value} (hv : v.IsWritten) :
    Keeps (fun _ => True) (define s name v) := by
  unfold define
  refine keeps_get_bind fun w _ => ?_
  split
  · exact keeps_pure trivial
  · split
    · exact keeps_fail trivial
    · exact keeps_modify fun w hw => hw.defined s name hv rfl

theorem keeps_resolve (s : ScopeId) (name : String) : Keeps Value.IsWritten (resolve s name) := by
  unfold resolve
  refine keeps_get_bind fun w hw => ?_
  split
  · rename_i hlookup
    exact keeps_pure (hw.lookup? hlookup)
  · exact keeps_fail trivial

theorem keeps_observe (v : Value) : Keeps (fun _ => True) (observe v) := by
  have hnote (e : Event) : Keeps (fun _ => True) (modify fun w => w.note e : Eval Unit) :=
    keeps_modify fun _ hw => hw.of_scopes rfl
  unfold observe
  refine keeps_get_bind fun w _ => ?_
  split
  · exact hnote _
  · exact hnote _
  · exact (hnote _).bind fun _ _ => keeps_fail trivial

/-! ## Operations -/

theorem keeps_requireNumber (context : String) (v : Value) :
    Keeps (fun _ => True) (ofExcept (requireNumber context v)) := by
  refine keeps_ofExcept (fun _ _ => trivial) fun c h => ?_
  unfold requireNumber at h
  split at h <;> cases h
  trivial

theorem keeps_requireTruth (context : String) (v : Value) :
    Keeps (fun _ => True) (ofExcept (requireTruth context v)) := by
  refine keeps_ofExcept (fun _ _ => trivial) fun c h => ?_
  unfold requireTruth at h
  split at h <;> cases h
  trivial

theorem keeps_calculate {op : BinaryOp} (hop : ∀ text, op ≠ .unknown text) (x y : Float) :
    Keeps Value.IsWritten (calculate op x y) := by
  cases op with
  | add | subtract | multiply => exact keeps_makeNumber _
  | divide =>
      unfold calculate
      dsimp only
      split
      · exact keeps_fail trivial
      · exact keeps_makeNumber _
  | remainder =>
      unfold calculate
      dsimp only
      split
      · exact keeps_fail trivial
      · split
        · exact keeps_makeNumber _
        · exact keeps_throw (Or.inl rfl)
  | unknown text => exact absurd rfl (hop text)

theorem keeps_applyBinary {op : BinaryOp} (hop : ∀ text, op ≠ .unknown text)
    (left right : Value) : Keeps Value.IsWritten (applyBinary op left right) := by
  unfold applyBinary
  split
  · split
    · exact keeps_calculate (by simp) _ _
    · exact keeps_pure .string
    · exact keeps_fail trivial
  · exact (keeps_requireNumber _ left).bind fun x _ =>
      (keeps_requireNumber _ right).bind fun y _ => keeps_calculate hop x y

theorem keeps_applyCompare {op : CompareOp} (hop : ∀ text, op ≠ .unknown text)
    (left right : Value) : Keeps (fun _ => True) (ofExcept (applyCompare op left right)) :=
  keeps_ofExcept (fun _ _ => trivial) fun c h => by
    rw [eq_cannotCompare hop h]
    trivial

theorem keeps_getField {receiver : Value} (hreceiver : receiver.IsWritten) (name : String) :
    Keeps Value.IsWritten (getField receiver name) := by
  unfold getField
  split
  · split
    · rename_i hget
      exact keeps_pure (hreceiver.slots _ (Slots.mem_of_get? hget))
    · exact keeps_fail trivial
  · split
    · exact keeps_makeNumber _
    · exact keeps_fail trivial
  · split
    · exact keeps_makeNumber _
    · exact keeps_fail trivial
  · exact keeps_fail trivial

theorem keeps_positionOf (index : Value) (length : Nat) :
    Keeps (fun _ => True) (ofExcept (positionOf index length)) := by
  refine keeps_ofExcept (fun _ _ => trivial) fun c h => ?_
  unfold positionOf at h
  split at h
  · split at h
    · split at h <;> cases h
      trivial
    · cases h
      trivial
  · cases h
    trivial

theorem keeps_getIndex {receiver : Value} (hreceiver : receiver.IsWritten) (index : Value) :
    Keeps Value.IsWritten (getIndex receiver index) := by
  unfold getIndex
  split
  · refine (keeps_positionOf index _).bind fun i _ => ?_
    split
    · rename_i hitem
      exact keeps_pure (hreceiver.items _ (List.mem_of_getElem? hitem))
    · exact keeps_fail trivial
  · refine (keeps_positionOf index _).bind fun i _ => ?_
    split
    · exact keeps_pure .string
    · exact keeps_fail trivial
  · split
    · exact keeps_getField hreceiver _
    · exact keeps_fail trivial
  · exact keeps_fail trivial

theorem keeps_requirePair (operation : Builtin) (arg : Value) :
    Keeps (fun _ => True) (ofExcept (requirePair operation arg)) := by
  refine keeps_ofExcept (fun _ _ => trivial) fun c h => ?_
  unfold requirePair at h
  split at h <;> cases h
  trivial

theorem keeps_runBuiltin (operation : Builtin) {arg : Value} (harg : arg.IsWritten) :
    Keeps Value.IsWritten (runBuiltin operation arg) := by
  cases operation with
  | split =>
      refine (keeps_requirePair .split arg).bind fun pair _ => ?_
      split
      · refine keeps_makeList fun v hv => ?_
        obtain ⟨text, -, rfl⟩ := List.mem_map.1 hv
        exact .string
      · exact keeps_fail trivial
  | debug => exact (keeps_observe arg).bind fun _ _ => keeps_pure harg
  | equal =>
      exact (keeps_requirePair .equal arg).bind fun pair _ =>
        keeps_get_bind fun _ _ => keeps_pure (.truth _)

/-- A foreign value is no result of a call, but that is no matter of shape. -/
theorem keeps_requireResult {v : Value} (hv : v.IsWritten) :
    Keeps Value.IsWritten (ofExcept (requireResult v)) := by
  refine keeps_ofExcept (fun u h => ?_) fun c h => ?_
  · unfold requireResult at h
    split at h <;> cases h
    · exact .unit
    · exact hv
  · unfold requireResult at h
    split at h <;> cases h
    trivial

theorem keeps_callBuiltin (operation : Builtin) {args : List Value}
    (hargs : ∀ v ∈ args, v.IsWritten) :
    Keeps Value.IsWritten (callBuiltin operation args) := by
  unfold callBuiltin
  split
  · exact (keeps_runBuiltin operation (hargs _ (.head _))).bind fun v hv => keeps_requireResult hv
  · exact keeps_fail trivial

/-! ## Literals and keys -/

theorem keeps_decodeLiteral {literal : String}
    (hliteral : (Terminal.token .string).Takes literal.toList) :
    Keeps (fun data => ∃ s, data = Host.text s) (ofExcept (decodeLiteral literal)) := by
  refine keeps_ofExcept (fun data h => decodeLiteral_of_takes hliteral h) fun c h => ?_
  obtain ⟨rfl, hdecode⟩ := eq_invalidString h
  exact ⟨hliteral, hdecode⟩

theorem keeps_decodeString {literal : String}
    (hliteral : (Terminal.token .string).Takes literal.toList) :
    Keeps (fun _ => True) (decodeString literal) := by
  refine (keeps_decodeLiteral hliteral).bind fun data hdata => ?_
  obtain ⟨s, rfl⟩ := hdata
  exact keeps_pure trivial

theorem keeps_decodeKey {key : Key} (hkey : key.IsWritten) : Keeps (fun _ => True) key.decode := by
  unfold Key.IsWritten at hkey
  unfold Key.decode
  split
  · exact keeps_pure trivial
  · rename_i hname
    rw [hname] at hkey
    refine (keeps_decodeLiteral hkey).bind fun data hdata => ?_
    obtain ⟨s, rfl⟩ := hdata
    exact keeps_pure trivial
  · rename_i hname
    rw [hname] at hkey
    exact absurd hkey id
  · rename_i hname
    rw [hname] at hkey
    exact absurd hkey id

/-! ## Patterns -/

mutual

theorem keeps_bindPattern (s : ScopeId) {p : Pattern} (hp : p.IsWritten) {v : Value}
    (hv : v.IsWritten) : Keeps (fun _ => True) (bindPattern s p v) := by
  cases p with
  | name pos name =>
      unfold bindPattern
      exact keeps_define s name.text hv
  | array pos items =>
      cases hp with
      | array hitems =>
          unfold bindPattern
          split
          · split
            · exact keeps_fail trivial
            · exact keeps_bindItems s hitems hv.items
          · exact keeps_fail trivial
  | record pos fields =>
      cases hp with
      | record hfields =>
          unfold bindPattern
          split
          · exact keeps_bindFields s hfields hv.slots
          · exact keeps_fail trivial
  | unsupported label => cases hp
  | broken b => cases hp

theorem keeps_bindItems (s : ScopeId) {ps : List Pattern} (hps : ∀ p ∈ ps, p.IsWritten)
    {vs : List Value} (hvs : ∀ v ∈ vs, v.IsWritten) :
    Keeps (fun _ => True) (bindItems s ps vs) := by
  match ps, vs with
  | [], _ =>
      unfold bindItems
      exact keeps_pure trivial
  | _ :: _, [] =>
      unfold bindItems
      exact keeps_pure trivial
  | p :: ps, v :: vs =>
      unfold bindItems
      exact (keeps_bindPattern s (hps p (.head _)) (hvs v (.head _))).bind fun _ _ =>
        keeps_bindItems s (fun p hp => hps p (.tail _ hp)) fun v hv => hvs v (.tail _ hv)

theorem keeps_bindFields (s : ScopeId) {fs : List PatternField} (hfs : ∀ f ∈ fs, f.IsWritten)
    {slots : Slots} (hslots : ∀ slot ∈ slots, slot.2.IsWritten) :
    Keeps (fun _ => True) (bindFields s fs slots) := by
  match fs with
  | [] =>
      unfold bindFields
      exact keeps_pure trivial
  | .broken b :: fs => cases hfs _ (.head _)
  | .mk pos key pattern :: fs =>
      cases hfs _ (.head _) with
      | mk hkey hpattern =>
          unfold bindFields
          have hrest := keeps_bindFields s (fun f hf => hfs f (.tail _ hf)) hslots
          refine (keeps_decodeKey hkey).bind fun name _ => ?_
          dsimp only
          split
          · rename_i hget
            exact (keeps_bindPattern s hpattern (hslots _ (Slots.mem_of_get? hget))).bind
              fun _ _ => hrest
          · have hfail : Keeps (fun _ => True) (fail (.keyNotFound name) : Eval Unit) :=
              keeps_fail trivial
            exact hfail.bind fun _ _ => hrest

end

end Eval

end VariantScript
