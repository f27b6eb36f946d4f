import VariantScript.Host.Marshal

/-!
# Lowering values

How values of the script language are handed to the host.  Whole numbers below 1e21 become whole
numbers of the host, booleans flags, arrays and lists lists, records maps; functions cannot be handed
out, and foreign values are not taken for values.
-/

namespace VariantScript.Value

/-! ## Asking for a kind of value -/

/-- The elements that a value has to have as a list. -/
def requireElements (v : Value) : Except MarshalStop (List Value) :=
  if v.isList then v.elements.mapError MarshalStop.breakdown
  else .error (MarshalError.notAList v).stop

/-- The fields that a value has to have as a record, in order. -/
def requireEntries : Value → Except MarshalStop (List (String × Value))
  | .record _ slots => .ok slots
  | v => .error (MarshalError.notARecord v).stop

/-- The truth value that a value has to stand for as a boolean. -/
def requireFlag (v : Value) : Except MarshalStop Bool :=
  match v.truth? with
  | some flag => .ok flag
  | none => .error (MarshalError.notABoolean v).stop

/-! ## Handing out -/

/-- The first magnitude that is not handed out as a whole number. -/
def wholeBound : Float := 1e21

/-- The host number of a double. -/
def lowerNumber (x : Float) : Host :=
  match Number.whole? x with
  | some n => if x.abs < wholeBound then .whole n else .float x
  | none => .float x

mutual
/-- The host value that a value becomes. -/
def lower : Value → Except MarshalStop Host
  | .number _ x => .ok (lowerNumber x)
  | .string text => .ok (.text text)
  | .array _ items => do return .list (← lowerAll items)
  | .record _ slots => do return .map (← lowerSlots slots)
  | .variant _ .yes _ => .ok (.truth true)
  | .variant _ .no _ => .ok (.truth false)
  | .variant _ .empty _ => .ok (.list [])
  | .variant id .head payload => do
      -- The whole chain is taken apart before its first element is lowered.
      let _ ← (Value.variant id .head payload).requireElements
      return .list (← lowerCell payload)
  | .closure id f => .error (MarshalError.isFunction (.closure id f)).stop
  | .builtin f => .error (MarshalError.isFunction (.builtin f)).stop
  | .foreign _ data => .error (MarshalError.notAValue data.typeName).stop

/-- Lowers values from left to right. -/
def lowerAll : List Value → Except MarshalStop (List Host)
  | [] => .ok []
  | v :: vs => do
      let h ← lower v
      let hs ← lowerAll vs
      return h :: hs

/-- Lowers fields from left to right. -/
def lowerSlots : List (String × Value) → Except MarshalStop (List (Host × Host))
  | [] => .ok []
  | (name, v) :: rest => do
      let h ← lower v
      let hs ← lowerSlots rest
      return (.text name, h) :: hs

/-- Lowers the elements of a list from the payload of its first cell on. -/
def lowerCell : Value → Except MarshalStop (List Host)
  | .array _ [element, .variant _ .head payload] => do
      let h ← lower element
      let hs ← lowerCell payload
      return h :: hs
  | .array _ [element, _] => do return [← lower element]
  | _ => .ok []
end

/-- The elements of a list, lowered. -/
def lowerElements (v : Value) : Except MarshalStop (List Host) := do
  lowerAll (← v.requireElements)

end VariantScript.Value
