import VariantScript.Proofs.Evaluation.Returns

/-!
# Where functions come from

A function is made where a term for one is evaluated, and has the parameters and the body of that
term.  An `Origin` says which terms are evaluated in a run and which functions there are; whatever is
evaluated then finds no other functions and leaves no others behind.

The same goes for faults: an evaluation that fails where none that it starts does fails with a fault
that has no place yet.
-/

namespace VariantScript

open Syntax Eval

/-! ## Functions -/

/-- A term makes functions with the parameters and the body that a function has. -/
def Syntax.Term.MakesFunction (t : Term) (f : Closure) : Prop :=
  ∃ params : Params, f.params = params.patterns ∧
    (t.form = .arrow params f.body ∨ t.form = .functionExpression params f.body ∨
      ∃ name, t.form = .functionDeclaration name params f.body)

theorem Syntax.Term.MakesFunction.body_mem {t : Term} {f : Closure} (h : t.MakesFunction f) :
    f.body ∈ t.form.parts := by
  obtain ⟨params, -, hform | hform | ⟨name, hform⟩⟩ := h <;> rw [hform] <;> exact .head _

/-- Terms that may be evaluated and functions that there may be, where new objects have identities
from some number on. -/
structure Origin where
  terms : Term → Prop
  functions : Identity → Closure → Prop
  serial : Nat
  part {t u : Term} (ht : terms t) (hu : u ∈ t.form.parts) : terms u
  made {t : Term} {i : Identity} {f : Closure} (ht : terms t) (hmakes : t.MakesFunction f)
    (hi : serial ≤ i.serial) : functions i f
  body {i : Identity} {f : Closure} (hf : functions i f) : terms f.body

/-- A value whose functions are of an origin. -/
inductive Value.IsFrom (o : Origin) : Value → Prop where
  | number {id : Identity} {x : Float} : IsFrom o (.number id x)
  | string {text : String} : IsFrom o (.string text)
  | array {id : Identity} {items : List Value} (hitems : ∀ v ∈ items, IsFrom o v) :
      IsFrom o (.array id items)
  | record {id : Identity} {slots : List (String × Value)}
      (hslots : ∀ slot ∈ slots, IsFrom o slot.2) : IsFrom o (.record id slots)
  | variant {id : Identity} {tag : Tag} {payload : Value} (hpayload : IsFrom o payload) :
      IsFrom o (.variant id tag payload)
  | closure {id : Identity} {f : Closure} (hf : o.functions id f) : IsFrom o (.closure id f)
  | builtin {operation : Builtin} : IsFrom o (.builtin operation)
  | foreign {id : Identity} {data : Host} : IsFrom o (.foreign id data)

/-- A world whose functions are of an origin, and in which only new identities are free. -/
structure World.IsFrom (o : Origin) (w : World) : Prop where
  serial : o.serial ≤ w.nextSerial
  values {i : Nat} {scope : Scope} (hscope : w.scopes[i]? = some scope) :
    ∀ slot ∈ scope.vars, slot.2.IsFrom o

/-- A moment at which an origin is kept to. -/
def Moment.IsFrom (o : Origin) : Moment → Prop
  | term _ _ t w => o.terms t ∧ w.IsFrom o
  | call _ callee args w => callee.IsFrom o ∧ (∀ v ∈ args, v.IsFrom o) ∧ w.IsFrom o

variable {o o' : Origin}

namespace Value.IsFrom

theorem unit : Value.unit.IsFrom o :=
  .array (by simp)

theorem truth (flag : Bool) : (Value.truth flag).IsFrom o := by
  cases flag <;> exact .variant unit

theorem items {id : Identity} {vs : List Value} (h : (Value.array id vs).IsFrom o) :
    ∀ v ∈ vs, v.IsFrom o := by
  cases h with
  | array hitems => exact hitems

theorem slots {id : Identity} {slots : List (String × Value)}
    (h : (Value.record id slots).IsFrom o) : ∀ slot ∈ slots, slot.2.IsFrom o := by
  cases h with
  | record hslots => exact hslots

theorem payload {id : Identity} {tag : Tag} {payload : Value}
    (h : (Value.variant id tag payload).IsFrom o) : payload.IsFrom o := by
  cases h with
  | variant hpayload => exact hpayload

theorem function {id : Identity} {f : Closure} (h : (Value.closure id f).IsFrom o) :
    o.functions id f := by
  cases h with
  | closure hf => exact hf

theorem hereditary : Value.Hereditary (Value.IsFrom o) :=
  ⟨items, slots, payload⟩

theorem holds {v u : Value} (h : v.IsFrom o) (hu : v.Holds u) : u.IsFrom o := by
  induction hu with
  | here => exact h
  | item hv _ ih => exact ih (h.items _ hv)
  | slot hslot _ ih => exact ih (h.slots _ hslot)
  | payload _ ih => exact ih h.payload

theorem listFrom (next : Nat) {vs : List Value} (h : ∀ v ∈ vs, v.IsFrom o) :
    (Value.listFrom next vs).1.IsFrom o := by
  induction vs with
  | nil => exact .variant unit
  | cons v vs ih =>
      have hrest := ih fun u hu => h u (.tail _ hu)
      exact .variant (.array (by simpa using ⟨h v (.head _), hrest⟩))

theorem mono {v : Value} (h : v.IsFrom o) (hle : ∀ i f, o.functions i f → o'.functions i f) :
    v.IsFrom o' := by
  induction h with
  | number => exact .number
  | string => exact .string
  | array _ ih => exact .array ih
  | record _ ih => exact .record ih
  | variant _ ih => exact .variant ih
  | closure hf => exact .closure (hle _ _ hf)
  | builtin => exact .builtin
  | foreign => exact .foreign

end Value.IsFrom

namespace World.IsFrom

variable {w w' : World}

theorem lookup? (h : w.IsFrom o) {s : ScopeId} {name : String} {v : Value}
    (hlookup : w.lookup? s name = some v) : v.IsFrom o := by
  induction hindex : s.index using Nat.strongRecOn generalizing s with
  | ind n ih =>
      rw [World.lookup?] at hlookup
      split at hlookup
      · cases hlookup
      · rename_i scope hscope
        split at hlookup
        · rename_i value hget
          cases hlookup
          exact h.values hscope _ (Slots.mem_of_get? hget)
        · split at hlookup
          · rename_i parent _
            split at hlookup
            · rename_i hlt
              exact ih parent.index (hindex ▸ hlt) hlookup rfl
            · cases hlookup
          · cases hlookup

theorem of_scopes (h : w.IsFrom o) (hscopes : w'.scopes = w.scopes)
    (hserial : w.nextSerial ≤ w'.nextSerial) : w'.IsFrom o :=
  ⟨Nat.le_trans h.serial hserial, fun hscope => h.values (hscopes ▸ hscope)⟩

theorem pushed {scope : Scope} (h : w.IsFrom o) (hscopes : w'.scopes = w.scopes.push scope)
    (hserial : w.nextSerial ≤ w'.nextSerial) (hvars : ∀ slot ∈ scope.vars, slot.2.IsFrom o) :
    w'.IsFrom o := by
  refine ⟨Nat.le_trans h.serial hserial, fun {i scope'} hscope' => ?_⟩
  rw [hscopes, Array.getElem?_push] at hscope'
  split at hscope'
  · cases hscope'
    exact hvars
  · exact h.values hscope'

theorem bind (h : w.IsFrom o) (s : ScopeId) (name : String) {v : Value} (hv : v.IsFrom o) :
    { w with scopes := w.scopes.modify s.index fun scope =>
      { scope with vars := scope.vars ++ [(name, v)] } }.IsFrom o := by
  refine ⟨h.serial, fun {i scope} hscope slot hslot => ?_⟩
  rw [Array.getElem?_modify] at hscope
  split at hscope
  · obtain ⟨old, hold, rfl⟩ := Option.map_eq_some_iff.1 hscope
    rcases List.mem_append.1 hslot with hslot | hslot
    · exact h.values hold slot hslot
    · rw [List.mem_singleton.1 hslot]
      exact hv
  · exact h.values hscope slot hslot

end World.IsFrom

/-! ## Evaluations -/

namespace Eval

/-- How an evaluation ends: with a good value, with the return of a value of the origin, or with a
fault, which has no place unless it may have come up elsewhere. -/
inductive Concludes (o : Origin) (elsewhere : Prop) {α : Type} (good : α → Prop) :
    Except Stop α → Prop where
  | value {x : α} (hx : good x) : Concludes o elsewhere good (.ok x)
  | fault {f : Fault} (hf : f.location = none ∨ elsewhere) :
      Concludes o elsewhere good (.error (.fault f))
  | returned {v : Value} (hv : v.IsFrom o) : Concludes o elsewhere good (.error (.returned v))
  | tooDeep : Concludes o elsewhere good (.error .tooDeep)
  | breakdown {b : Breakdown} : Concludes o elsewhere good (.error (.breakdown b))

/-- An evaluation that keeps to an origin and ends well. -/
structure Proceeds (o : Origin) (elsewhere : Prop) {α : Type} (good : α → Prop)
    (act : Eval α) (w : World) : Prop where
  world : (act.run.run w).2.IsFrom o
  ending : Concludes o elsewhere good (act.run.run w).1

variable {α β : Type} {elsewhere : Prop} {good : α → Prop} {next : β → Prop} {act : Eval α}
  {k : α → Eval β} {w w' : World}

theorem proceeds_pure {x : α} (hw : w.IsFrom o) (hx : good x) :
    Proceeds o elsewhere good (pure x : Eval α) w :=
  ⟨hw, .value hx⟩

theorem proceeds_returned {v : Value} (hw : w.IsFrom o) (hv : v.IsFrom o) :
    Proceeds o elsewhere good (throw (.returned v) : Eval α) w :=
  ⟨hw, .returned hv⟩

theorem proceeds_breakDown (hw : w.IsFrom o) (b : Breakdown) :
    Proceeds o elsewhere good (breakDown b : Eval α) w :=
  ⟨hw, .breakdown⟩

theorem proceeds_fail (hw : w.IsFrom o) (cause : Cause) :
    Proceeds o elsewhere good (fail cause : Eval α) w := by
  unfold fail
  split
  · exact proceeds_breakDown hw _
  · exact ⟨hw, .fault (.inl rfl)⟩

theorem proceeds_ofExcept {e : Except Cause α} (hw : w.IsFrom o) (hok : ∀ x, e = .ok x → good x) :
    Proceeds o elsewhere good (ofExcept e) w := by
  cases e with
  | ok x => exact proceeds_pure hw (hok x rfl)
  | error c => exact proceeds_fail hw c

theorem Proceeds.bind (h : Proceeds o elsewhere good act w)
    (hnext : ∀ x w', Gives act w x w' → w'.IsFrom o → good x →
      Proceeds o elsewhere next (k x) w') :
    Proceeds o elsewhere next (act >>= k) w := by
  obtain ⟨hworld, hending⟩ := h
  have hbind := run_bind act k w
  generalize hrun : act.run.run w = r at hworld hending hbind
  obtain ⟨result, w'⟩ := r
  cases hending with
  | value hx =>
      obtain ⟨hworld', hending'⟩ := hnext _ w' hrun hworld hx
      exact ⟨by rw [hbind]; exact hworld', by rw [hbind]; exact hending'⟩
  | fault hf => exact ⟨by rw [hbind]; exact hworld, by rw [hbind]; exact .fault hf⟩
  | returned hv => exact ⟨by rw [hbind]; exact hworld, by rw [hbind]; exact .returned hv⟩
  | tooDeep => exact ⟨by rw [hbind]; exact hworld, by rw [hbind]; exact .tooDeep⟩
  | breakdown => exact ⟨by rw [hbind]; exact hworld, by rw [hbind]; exact .breakdown⟩

theorem Proceeds.get_bind {k : World → Eval β} (h : Proceeds o elsewhere next (k w) w) :
    Proceeds o elsewhere next (get >>= k) w :=
  ⟨h.world, h.ending⟩

theorem Proceeds.of_gives {x : α} (h : Proceeds o elsewhere good act w)
    (hgives : Gives act w x w') : w'.IsFrom o ∧ good x := by
  obtain ⟨hworld, hending⟩ := h
  rw [hgives] at hworld hending
  cases hending with
  | value hx => exact ⟨hworld, hx⟩

/-! ## New objects, scopes and names -/

theorem proceeds_freshIdentity (hw : w.IsFrom o) :
    Proceeds o elsewhere (fun i => o.serial ≤ i.serial) freshIdentity w :=
  ⟨hw.of_scopes rfl (Nat.le_succ _), .value hw.serial⟩

theorem proceeds_makeNumber (hw : w.IsFrom o) (x : Float) :
    Proceeds o elsewhere (Value.IsFrom o) (makeNumber x) w :=
  (proceeds_freshIdentity hw).bind fun _ _ _ hw' _ => proceeds_pure hw' .number

theorem proceeds_makeArray {items : List Value} (hw : w.IsFrom o)
    (hitems : ∀ v ∈ items, v.IsFrom o) :
    Proceeds o elsewhere (Value.IsFrom o) (makeArray items) w :=
  (proceeds_freshIdentity hw).bind fun _ _ _ hw' _ => proceeds_pure hw' (.array hitems)

theorem proceeds_makeRecord {slots : Slots} (hw : w.IsFrom o)
    (hslots : ∀ slot ∈ slots, slot.2.IsFrom o) :
    Proceeds o elsewhere (Value.IsFrom o) (makeRecord slots) w :=
  (proceeds_freshIdentity hw).bind fun _ _ _ hw' _ => proceeds_pure hw' (.record hslots)

/-- A new function is one of the term that is evaluated. -/
theorem proceeds_makeClosure {t : Term} {f : Closure} (hw : w.IsFrom o) (ht : o.terms t)
    (hmakes : t.MakesFunction f) : Proceeds o elsewhere (Value.IsFrom o) (makeClosure f) w :=
  (proceeds_freshIdentity hw).bind fun _ _ _ hw' hi =>
    proceeds_pure hw' (.closure (o.made ht hmakes hi))

theorem proceeds_makeList {vs : List Value} (hw : w.IsFrom o) (hvs : ∀ v ∈ vs, v.IsFrom o) :
    Proceeds o elsewhere (Value.IsFrom o) (makeList vs) w :=
  ⟨hw.of_scopes rfl (Value.le_listFrom w.nextSerial vs), .value (.listFrom w.nextSerial hvs)⟩

theorem proceeds_openScope (hw : w.IsFrom o) (parent : Option ScopeId) (isCall : Bool) :
    Proceeds o elsewhere (fun _ => True) (openScope parent isCall) w :=
  ⟨hw.pushed rfl (Nat.le_refl _) (by simp), .value trivial⟩

theorem proceeds_define (hw : w.IsFrom o) (s : ScopeId) (name : String) {v : Value}
    (hv : v.IsFrom o) : Proceeds o elsewhere (fun _ => True) (define s name v) w := by
  unfold define
  apply Proceeds.get_bind
  split
  · exact proceeds_pure hw trivial
  · split
    · exact proceeds_fail hw _
    · exact ⟨hw.bind s name hv, .value trivial⟩

theorem proceeds_resolve (hw : w.IsFrom o) (s : ScopeId) (name : String) :
    Proceeds o elsewhere (Value.IsFrom o) (resolve s name) w := by
  unfold resolve
  apply Proceeds.get_bind
  split
  · rename_i hlookup
    exact proceeds_pure hw (hw.lookup? hlookup)
  · exact proceeds_fail hw _

theorem proceeds_observe (hw : w.IsFrom o) (v : Value) :
    Proceeds o elsewhere (fun _ => True) (observe v) w := by
  have hnote (e : Event) :
      Proceeds o elsewhere (fun _ => True) (modify fun w => w.note e : Eval Unit) w :=
    ⟨hw.of_scopes rfl (Nat.le_refl _), .value trivial⟩
  unfold observe
  apply Proceeds.get_bind
  split
  · exact hnote _
  · exact hnote _
  · exact (hnote _).bind fun _ _ _ hw' _ => proceeds_fail hw' _

/-! ## Operations -/

theorem proceeds_calculate (hw : w.IsFrom o) (op : BinaryOp) (x y : Float) :
    Proceeds o elsewhere (Value.IsFrom o) (calculate op x y) w := by
  cases op with
  | add | subtract | multiply => exact proceeds_makeNumber hw _
  | divide =>
      unfold calculate
      dsimp only
      split
      · exact proceeds_fail hw _
      · exact proceeds_makeNumber hw _
  | remainder =>
      unfold calculate
      dsimp only
      split
      · exact proceeds_fail hw _
      · split
        · exact proceeds_makeNumber hw _
        · exact proceeds_breakDown hw _
  | unknown text =>
      unfold calculate
      exact proceeds_fail hw _

theorem proceeds_applyBinary (hw : w.IsFrom o) (op : BinaryOp) (left right : Value) :
    Proceeds o elsewhere (Value.IsFrom o) (applyBinary op left right) w := by
  have hnumber {w : World} (hw : w.IsFrom o) (e : Except Cause Float) :
      Proceeds o elsewhere (fun _ => True) (ofExcept e) w :=
    proceeds_ofExcept hw fun _ _ => trivial
  unfold applyBinary
  split
  · split
    · exact proceeds_calculate hw _ _ _
    · exact proceeds_pure hw .string
    · exact proceeds_fail hw _
  · exact (hnumber hw _).bind fun x _ _ hw' _ => (hnumber hw' _).bind fun y _ _ hw'' _ =>
      proceeds_calculate hw'' _ x y

theorem proceeds_getField {receiver : Value} (hw : w.IsFrom o) (hreceiver : receiver.IsFrom o)
    (name : String) : Proceeds o elsewhere (Value.IsFrom o) (getField receiver name) w := by
  unfold getField
  split
  · split
    · rename_i hget
      exact proceeds_pure hw (hreceiver.slots _ (Slots.mem_of_get? hget))
    · exact proceeds_fail hw _
  · split
    · exact proceeds_makeNumber hw _
    · exact proceeds_fail hw _
  · split
    · exact proceeds_makeNumber hw _
    · exact proceeds_fail hw _
  · exact proceeds_fail hw _

theorem proceeds_getIndex {receiver : Value} (hw : w.IsFrom o) (hreceiver : receiver.IsFrom o)
    (index : Value) : Proceeds o elsewhere (Value.IsFrom o) (getIndex receiver index) w := by
  have hposition (length : Nat) :
      Proceeds o elsewhere (fun _ => True) (ofExcept (positionOf index length)) w :=
    proceeds_ofExcept hw fun _ _ => trivial
  unfold getIndex
  split
  · refine (hposition _).bind fun i _ _ hw' _ => ?_
    split
    · rename_i hitem
      exact proceeds_pure hw' (hreceiver.items _ (List.mem_of_getElem? hitem))
    · exact proceeds_fail hw' _
  · refine (hposition _).bind fun i _ _ hw' _ => ?_
    split
    · exact proceeds_pure hw' .string
    · exact proceeds_fail hw' _
  · split
    · exact proceeds_getField hw hreceiver _
    · exact proceeds_fail hw _
  · exact proceeds_fail hw _

theorem proceeds_runBuiltin (hw : w.IsFrom o) (operation : Builtin) {arg : Value}
    (harg : arg.IsFrom o) :
    Proceeds o elsewhere (Value.IsFrom o) (runBuiltin operation arg) w := by
  have hpair : Proceeds o elsewhere (fun _ => True) (ofExcept (requirePair operation arg)) w :=
    proceeds_ofExcept hw fun _ _ => trivial
  cases operation with
  | split =>
      refine hpair.bind fun pair _ _ hw' _ => ?_
      split
      · refine proceeds_makeList hw' fun v hv => ?_
        obtain ⟨text, -, rfl⟩ := List.mem_map.1 hv
        exact .string
      · exact proceeds_fail hw' _
  | debug => exact (proceeds_observe hw arg).bind fun _ _ _ hw' _ => proceeds_pure hw' harg
  | equal =>
      exact hpair.bind fun pair _ _ hw' _ => .get_bind (proceeds_pure hw' (.truth _))

theorem proceeds_requireResult (hw : w.IsFrom o) {v : Value} (hv : v.IsFrom o) :
    Proceeds o elsewhere (Value.IsFrom o) (ofExcept (requireResult v)) w := by
  refine proceeds_ofExcept hw fun u hu => ?_
  unfold requireResult at hu
  split at hu <;> cases hu
  · exact .unit
  · exact hv

theorem proceeds_callBuiltin (hw : w.IsFrom o) (operation : Builtin) {args : List Value}
    (hargs : ∀ v ∈ args, v.IsFrom o) :
    Proceeds o elsewhere (Value.IsFrom o) (callBuiltin operation args) w := by
  unfold callBuiltin
  split
  · exact (proceeds_runBuiltin hw operation (hargs _ (.head _))).bind fun v _ _ hw' hv =>
      proceeds_requireResult hw' hv
  · exact proceeds_fail hw _

/-! ## Literals, keys and patterns -/

theorem proceeds_decodeString (hw : w.IsFrom o) (literal : String) :
    Proceeds o elsewhere (fun _ => True) (decodeString literal) w := by
  have hdata : Proceeds o elsewhere (fun _ => True) (ofExcept (decodeLiteral literal)) w :=
    proceeds_ofExcept hw fun _ _ => trivial
  refine hdata.bind fun data _ _ hw' _ => ?_
  split
  · exact proceeds_pure hw' trivial
  · exact proceeds_breakDown hw' _

theorem proceeds_decodeKey (hw : w.IsFrom o) (key : Key) :
    Proceeds o elsewhere (fun _ => True) key.decode w := by
  have hdata (literal : String) :
      Proceeds o elsewhere (fun _ => True) (ofExcept (decodeLiteral literal)) w :=
    proceeds_ofExcept hw fun _ _ => trivial
  unfold Key.decode
  split
  · exact proceeds_pure hw trivial
  · refine (hdata _).bind fun data _ _ hw' _ => ?_
    split
    · exact proceeds_pure hw' trivial
    · split
      · exact proceeds_breakDown hw' _
      · exact proceeds_pure hw' trivial
  · exact proceeds_fail hw _
  · exact proceeds_breakDown hw _

mutual

theorem proceeds_bindPattern {w : World} (hw : w.IsFrom o) (s : ScopeId) (p : Pattern) {v : Value}
    (hv : v.IsFrom o) : Proceeds o elsewhere (fun _ => True) (bindPattern s p v) w := by
  cases p with
  | name pos name =>
      unfold bindPattern
      exact proceeds_define hw s name.text hv
  | array pos items =>
      unfold bindPattern
      split
      · split
        · exact proceeds_fail hw _
        · exact proceeds_bindItems hw s items hv.items
      · exact proceeds_fail hw _
  | record pos fields =>
      unfold bindPattern
      split
      · exact proceeds_bindFields hw s fields hv.slots
      · exact proceeds_fail hw _
  | unsupported label =>
      unfold bindPattern
      exact proceeds_fail hw _
  | broken b =>
      unfold bindPattern
      exact proceeds_breakDown hw _

theorem proceeds_bindItems {w : World} (hw : w.IsFrom o) (s : ScopeId) (ps : List Pattern)
    {vs : List Value} (hvs : ∀ v ∈ vs, v.IsFrom o) :
    Proceeds o elsewhere (fun _ => True) (bindItems s ps vs) w := by
  match ps, vs with
  | [], _ =>
      unfold bindItems
      exact proceeds_pure hw trivial
  | _ :: _, [] =>
      unfold bindItems
      exact proceeds_pure hw trivial
  | p :: ps, v :: vs =>
      unfold bindItems
      exact (proceeds_bindPattern hw s p (hvs v (.head _))).bind fun _ _ _ hw' _ =>
        proceeds_bindItems hw' s ps fun v hv => hvs v (.tail _ hv)

theorem proceeds_bindFields {w : World} (hw : w.IsFrom o) (s : ScopeId) (fs : List PatternField)
    {slots : Slots} (hslots : ∀ slot ∈ slots, slot.2.IsFrom o) :
    Proceeds o elsewhere (fun _ => True) (bindFields s fs slots) w := by
  match fs with
  | [] =>
      unfold bindFields
      exact proceeds_pure hw trivial
  | .broken b :: fs =>
      unfold bindFields
      exact proceeds_breakDown hw _
  | .mk pos key pattern :: fs =>
      unfold bindFields
      refine (proceeds_decodeKey hw key).bind fun name w' _ hw' _ => ?_
      dsimp only
      split
      · rename_i hget
        have hpart := hslots _ (Slots.mem_of_get? hget)
        exact (proceeds_bindPattern hw' s pattern hpart).bind fun _ _ _ hw'' _ =>
          proceeds_bindFields hw'' s fs hslots
      · have hfail : Proceeds o elsewhere (fun _ => True) (fail (.keyNotFound name) : Eval Unit) w' :=
          proceeds_fail hw' _
        exact hfail.bind fun _ _ _ hw'' _ => proceeds_bindFields hw'' s fs hslots

end

end Eval

end VariantScript
