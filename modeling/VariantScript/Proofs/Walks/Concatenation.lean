import VariantScript.Proofs.Places.Evaluation
import VariantScript.Proofs.Serialization.RoundTrip
import VariantScript.Proofs.Splitting.Lists
import VariantScript.Proofs.Walks.Calls
import VariantScript.Proofs.Walks.Source

/-!
# What a walk over a list computes

The walk calls the list with two branches, one for the empty list and one for a head, which calls the
walk again with the rest.  So each element takes two nested calls, and the end of the list takes two
more.  Within the limit on nested calls the result is the concatenation of the elements, and beyond it
the run ends as too deep.  The walk finds itself by its name, which is bound in the scope of the
program only after the function was made, and still means the walk inside of every call.
-/

namespace VariantScript

open Syntax Eval

/-! ## The terms of the walk -/

namespace Walk

variable {call : Value → List Value → Eval Value} {w w' w'' : World} {s root : ScopeId} {v : Value}

theorem gives_reference {name : String} (h : w.lookup? s name = some v) :
    Gives (evaluate call s (reference name)) w v w := by
  rw [reference, node, evaluate, evaluateForm]
  exact (gives_resolve h).locate _

theorem gives_literal (text : String) :
    Gives (evaluate call s (node (.string ⟨Json.writeText text, .start⟩))) w (.string text) w := by
  have hstring : Gives (evaluateForm call s (.string ⟨Json.writeText text, .start⟩)) w
      (.string text) w := by
    rw [evaluateForm, decodeString, Term.decodeLiteral_writeText]
    rfl
  rw [node, evaluate]
  exact hstring.locate _

theorem gives_arrow (params : Params) (term : Term) :
    Gives (evaluate call s (node (.arrow params term))) w
      (.closure ⟨w.nextSerial⟩ ⟨params.patterns, term, s, none, .arrow⟩) (w.spend 1) := by
  rw [node, evaluate, evaluateForm]
  exact Gives.locate rfl _

theorem gives_none : Gives (evaluateAll call s []) w [] w := by
  rw [evaluateAll]
  rfl

theorem gives_more {t : Term} {ts : List Term} {vs : List Value}
    (h : Gives (evaluate call s t) w v w') (hs : Gives (evaluateAll call s ts) w' vs w'') :
    Gives (evaluateAll call s (t :: ts)) w (v :: vs) w'' := by
  rw [evaluateAll]
  exact h.bind (hs.bind rfl)

theorem gives_array {ts : List Term} {vs : List Value}
    (h : Gives (evaluateAll call s ts) w vs w') :
    Gives (evaluate call s (node (.array ts))) w (.array ⟨w'.nextSerial⟩ vs) (w'.spend 1) := by
  have hmake : Gives (makeArray vs) w' (.array ⟨w'.nextSerial⟩ vs) (w'.spend 1) := rfl
  rw [node, evaluate, evaluateForm]
  exact (h.bind hmake).locate _

/-- A call ends as what is called does with the arguments. -/
theorem call_verdict {fits : Prop} [Decidable fits] {text : String} {callee : Term}
    {args : List Term} {vs : List Value} (h : Gives (evaluate call s callee) w v w')
    (hs : Gives (evaluateAll call s args) w' vs w'')
    (hcall : ((call v vs).run.run w'').1 = verdict fits text) :
    ((evaluate call s (node (.call callee args))).run.run w).1 = verdict fits text := by
  rw [node, evaluate]
  refine locate_verdict ?_ _
  rw [evaluateForm, h.run_bind, hs.run_bind]
  exact hcall

/-! ## The functions of the walk -/

/-- The walk, made in a scope. -/
def walk (root : ScopeId) : Closure :=
  ⟨[named "xs"], body, root, none, .arrow⟩

/-- What the walk does with an empty list, made in the scope of a call. -/
def onEmpty (s : ScopeId) : Closure :=
  ⟨[named "_"], emptyBranch, s, none, .arrow⟩

/-- What the walk does with a head, made in the scope of a call. -/
def onHead (s : ScopeId) : Closure :=
  ⟨[.array (some .start) [named "h", named "t"]], headBranch, s, none, .arrow⟩

/-- The handler that the walk makes, from some identity on. -/
def handler (s : ScopeId) (next : Nat) : Value :=
  .array ⟨next + 2⟩ [.closure ⟨next⟩ (onEmpty s), .closure ⟨next + 1⟩ (onHead s)]

theorem callAt_empty (n : Nat) (i : Identity) (payload : Value) (next : Nat) :
    callAt n (.variant i .empty payload) [handler s next] =
      callAt n (.closure ⟨next⟩ (onEmpty s)) [payload] := by
  rw [callAt_variant]
  rfl

theorem callAt_head (n : Nat) (i : Identity) (payload : Value) (next : Nat) :
    callAt n (.variant i .head payload) [handler s next] =
      callAt n (.closure ⟨next + 1⟩ (onHead s)) [payload] := by
  rw [callAt_variant]
  rfl

/-- A call of a function needs one level at least. -/
theorem zero_verdict {i : Identity} {f : Closure} {args : List Value} {needed : Nat}
    {text : String} :
    ((callAt 0 (.closure i f) args).run.run w).1 = verdict (needed + 1 ≤ 0) text := by
  rw [callAt_zero_closure, verdict, if_neg (Nat.not_succ_le_zero _)]
  rfl

/-- The end of the list takes a call. -/
theorem onEmpty_verdict (n : Nat) {i : Identity} (payload : Value) :
    ((callAt n (.closure i (onEmpty s)) [payload]).run.run w).1 = verdict (0 + 1 ≤ n) "" := by
  cases n with
  | zero => exact zero_verdict
  | succ n =>
      refine enter_verdict [("_", payload)] rfl rfl rfl rfl ?_
      have hempty : Gives (evaluate (callAt n) ⟨w.scopes.size⟩ emptyBranch)
          (w.called s [("_", payload)]) (.string "") (w.called s [("_", payload)]) :=
        gives_literal ""
      rw [verdict, if_pos (by omega)]
      exact congrArg Prod.fst hempty

/-- The head is put in front of what the walk gives for the rest. -/
theorem headBranch_verdict {n needed : Nat} {first text : String} {rest f : Value}
    (hh : w.lookup? s "h" = some (.string first)) (ht : w.lookup? s "t" = some rest)
    (hjoin : w.lookup? s "join" = some f)
    (hrest : ((callAt n f [rest]).run.run w).1 = verdict (needed ≤ n) text) :
    ((evaluate (callAt n) s headBranch).run.run w).1 = verdict (needed ≤ n) (first ++ text) := by
  have hcall : ((evaluate (callAt n) s
      (node (.call (reference "join") [reference "t"]))).run.run w).1 =
        verdict (needed ≤ n) text :=
    call_verdict (gives_reference hjoin) (gives_more (gives_reference ht) gives_none) hrest
  rw [headBranch, node, evaluate]
  refine locate_verdict ?_ _
  rw [evaluateForm, (gives_reference hh).run_bind]
  exact bind_verdict hcall fun _ => rfl

/-- A head takes a call besides those that the rest takes. -/
theorem onHead_verdict {n needed : Nat} {i j : Identity} {first text : String} {rest f : Value}
    (hjoin : w.lookup? s "join" = some f) (hroot : w.lookup? root "join" = some f)
    (hrest : ∀ m w', m < n → w'.lookup? root "join" = some f →
      ((callAt m f [rest]).run.run w').1 = verdict (needed ≤ m) text) :
    ((callAt n (.closure i (onHead s)) [.array j [.string first, rest]]).run.run w).1 =
      verdict (needed + 1 ≤ n) (first ++ text) := by
  cases n with
  | zero => exact zero_verdict
  | succ n =>
      have hroot' : (w.called s [("h", .string first), ("t", rest)]).lookup? root "join" = some f :=
        (World.lookup?_before (World.lt_of_lookup? hroot)).trans hroot
      rw [verdict_congr Nat.add_le_add_iff_right]
      refine enter_verdict [("h", .string first), ("t", rest)] rfl rfl rfl rfl ?_
      exact headBranch_verdict (World.lookup?_called rfl) (World.lookup?_called rfl)
        ((World.lookup?_around rfl (World.lt_of_lookup? hjoin)).trans hjoin)
        (hrest n _ (Nat.lt_succ_self n) hroot')

/-- The walk hands the list to its branches. -/
theorem body_verdict {fits : Prop} [Decidable fits] {text : String}
    (hxs : w.lookup? s "xs" = some v)
    (hcall : ((call v [handler s w.nextSerial]).run.run (w.spend 3)).1 = verdict fits text) :
    ((evaluate call s body).run.run w).1 = verdict fits text :=
  call_verdict (gives_reference hxs)
    (gives_more (gives_array (gives_more (gives_arrow _ _) (gives_more (gives_arrow _ _) gives_none)))
      gives_none) hcall

/-- The walk over a list of strings gives their concatenation, and takes two calls for each string and
for the end of the list. -/
theorem walk_verdict {i : Identity} {texts : List String}
    (hv : v.IsListOf (texts.map Value.string)) (n : Nat)
    (hjoin : w.lookup? root "join" = some (.closure i (walk root))) :
    ((callAt n (.closure i (walk root)) [v]).run.run w).1 =
      verdict (2 * (texts.length + 1) ≤ n) (String.join texts) := by
  -- The walk goes on with the rest of the list in other worlds, in which its name still means it.
  induction texts generalizing n v w with
  | nil =>
      cases n with
      | zero => exact zero_verdict
      | succ n =>
          cases hv with
          | @empty j payload =>
              refine enter_verdict [("xs", .variant j .empty payload)] rfl rfl rfl rfl ?_
              refine body_verdict (World.lookup?_called rfl) ?_
              rw [callAt_empty, onEmpty_verdict]
              exact verdict_congr (by simp only [List.length_nil]; omega)
  | cons text texts ih =>
      cases n with
      | zero => exact zero_verdict
      | succ n =>
          cases hv with
          | @head j k _ rest _ hrest =>
              refine enter_verdict [("xs", .variant j .head (.array k [.string text, rest]))]
                rfl rfl rfl rfl ?_
              refine body_verdict (World.lookup?_called rfl) ?_
              rw [callAt_head, String.join_cons]
              obtain ⟨hinside, hbefore⟩ := World.lookup?_kept hjoin
                [("xs", .variant j .head (.array k [.string text, rest]))] rfl 3
              refine (onHead_verdict hinside hbefore fun m w' _ hw' =>
                ih hrest m hw').trans ?_
              exact verdict_congr (by simp only [List.length_cons]; omega)

/-! ## The program -/

/-- The list of some strings, as an operation makes it. -/
theorem isListOf_listFrom (next : Nat) (vs : List Value) :
    (Value.listFrom next vs).1.IsListOf vs := by
  induction vs with
  | nil => exact .empty
  | cons v vs ih => exact .head ih

theorem gives_member {receiver : Term} {name : String} {i : Identity} {slots : Slots}
    (h : Gives (evaluate call s receiver) w (.record i slots) w')
    (hget : slots.get? name = some v) :
    Gives (evaluate call s (node (.member receiver ⟨name, .start⟩))) w v w' := by
  have hfield : Gives (getField (.record i slots) name) w' v w' := by
    rw [getField, hget]
    rfl
  rw [node, evaluate, evaluateForm]
  exact (h.bind hfield).locate _

theorem gives_call {callee : Term} {args : List Term} {vs : List Value} {result : Value}
    {w₃ : World} (h : Gives (evaluate call s callee) w v w')
    (hs : Gives (evaluateAll call s args) w' vs w'') (hcall : Gives (call v vs) w'' result w₃) :
    Gives (evaluate call s (node (.call callee args))) w result w₃ := by
  rw [node, evaluate, evaluateForm]
  exact (h.bind (hs.bind hcall)).locate _

/-- Splitting a text gives the list of its parts. -/
theorem gives_split (w : World) (n : Nat) (i : Identity) (text separator : String) :
    ∃ v w', Gives (callAt n (.builtin .split) [.array i [.string text, .string separator]]) w v w' ∧
      v.IsListOf ((Text.split text separator).map Value.string) ∧ w'.scopes = w.scopes := by
  have hlist := isListOf_listFrom w.nextSerial ((Text.split text separator).map Value.string)
  have hmake := gives_runBuiltin_split w i text separator
  generalize Value.listFrom w.nextSerial ((Text.split text separator).map Value.string) = r
    at hlist hmake
  obtain ⟨list, next⟩ := r
  have hresult : Gives (ofExcept (requireResult list)) { w with nextSerial := next } list
      { w with nextSerial := next } := by
    generalize (Text.split text separator).map Value.string = vs at hlist
    cases hlist <;> rfl
  refine ⟨list, { w with nextSerial := next }, ?_, hlist, rfl⟩
  rw [callAt_builtin]
  exact hmake.bind hresult

/-- The second literals of the program denote the text and the separator, which are split. -/
theorem gives_parts {n : Nat} {i : Identity} {slots : Slots} (text separator : String)
    (h : w.lookup? s "harness" = some (.record i slots))
    (hsplit : slots.get? "split" = some (.builtin .split)) :
    ∃ v w', Gives (evaluate (callAt n) s (parts (Json.writeText text) (Json.writeText separator)))
        w v w' ∧
      v.IsListOf ((Text.split text separator).map Value.string) ∧ w'.scopes = w.scopes := by
  obtain ⟨v, w', hgives, hlist, hscopes⟩ :=
    gives_split (w.spend 1) n ⟨w.nextSerial⟩ text separator
  have hcallee : Gives
      (evaluate (callAt n) s (node (.member (reference "harness") ⟨"split", .start⟩)))
      w (.builtin .split) w :=
    gives_member (gives_reference h) hsplit
  have hpair : Gives (evaluate (callAt n) s (node (.array
      [node (.string ⟨Json.writeText text, .start⟩),
        node (.string ⟨Json.writeText separator, .start⟩)])))
      w (.array ⟨w.nextSerial⟩ [.string text, .string separator]) (w.spend 1) :=
    gives_array (gives_more (gives_literal text) (gives_more (gives_literal separator) gives_none))
  exact ⟨v, w', gives_call hcallee (gives_more hpair gives_none) hgives, hlist, hscopes⟩

/-- The name of the walk is bound in the scope of the program. -/
theorem gives_declaration (call : Value → List Value → Eval Value) {scope : Scope}
    (hscope : w.scopes[s.index]? = some scope)
    (hjoin : "join" ∉ scope.vars.names) :
    Gives (evaluate call s (node (.declaration (named "join")
        (node (.arrow ⟨some .start, [named "xs"]⟩ body))))) w Value.unit
      ((w.spend 1).gain s [("join", .closure ⟨w.nextSerial⟩ (walk s))]) := by
  have hdefine : Gives (bindPattern s (named "join") (.closure ⟨w.nextSerial⟩ (walk s)))
      (w.spend 1) () ((w.spend 1).gain s [("join", .closure ⟨w.nextSerial⟩ (walk s))]) := by
    have hfits := fits_define (s := s) "join" (.closure ⟨w.nextSerial⟩ (walk s)) (w.spend 1) scope
      hscope
    simp only [Fitting.ending, Slots.taken?, Slots.untilTaken, if_neg hjoin] at hfits
    unfold named bindPattern Gives
    exact hfits
  have harrow : Gives (evaluate call s (node (.arrow ⟨some .start, [named "xs"]⟩ body))) w
      (.closure ⟨w.nextSerial⟩ (walk s)) (w.spend 1) :=
    gives_arrow _ body
  have hunit : Gives (pure Value.unit) ((w.spend 1).gain s
      [("join", .closure ⟨w.nextSerial⟩ (walk s))]) Value.unit _ := rfl
  rw [node, evaluate, evaluateForm]
  exact (harrow.bind (hdefine.bind hunit)).locate _

/-- In a scope with the names that every script finds, the program gives the concatenation of the
parts of the text. -/
theorem tree_verdict {n : Nat} {harness : Identity} (text separator : String)
    (hscope : w.scopes[s.index]? = some ⟨none, World.rootVars harness, false⟩) :
    ((evaluate (callAt n) s
        (tree (Json.writeText text) (Json.writeText separator))).run.run w).1 =
      verdict (2 * ((Text.split text separator).length + 1) ≤ n)
        (String.join (Text.split text separator)) := by
  have hhoist : Gives (hoist s (statements (Json.writeText text) (Json.writeText separator)))
      w () w := rfl
  have hdeclared := gives_declaration (callAt n) hscope
    (show "join" ∉ ["harness", "equal"] by decide)
  generalize hvalue : Value.closure ⟨w.nextSerial⟩ (walk s) = f at hdeclared
  have hgained := World.gain_scope (w := w.spend 1) hscope [("join", f)]
  generalize (w.spend 1).gain s [("join", f)] = w' at hdeclared hgained
  have hharness := World.lookup?_of_scope hgained "harness"
  have hjoin : w'.lookup? s "join" = some f := World.lookup?_of_scope hgained "join"
  obtain ⟨v, w'', hparts, hlist, hscopes⟩ := gives_parts (n := n) text separator hharness rfl
  have hwalk := walk_verdict hlist n (by rw [World.lookup?_of_scopes hscopes, hjoin, ← hvalue])
  rw [tree, node, evaluate]
  refine locate_verdict ?_ _
  rw [evaluateForm, hhoist.run_bind, statements, evaluateBody, hdeclared.run_bind, evaluateBody]
  refine bind_verdict (locate_verdict ?_ _) fun _ => rfl
  rw [evaluateForm]
  exact call_verdict (gives_reference hjoin) (gives_more hparts gives_none) (hvalue ▸ hwalk)

/-! ## Runs of the program -/

/-- Without places, no end within a limit is another one. -/
theorem eq_verdict_of_unplaced {fits : Prop} [Decidable fits] {text : String}
    {r : Except Stop Value} (h : unplacedEnd Value.unplaced r = verdict fits text) :
    r = verdict fits text := by
  by_cases hfits : fits
  · rw [verdict, if_pos hfits] at h ⊢
    cases r with
    | error e => cases h
    | ok v =>
        cases v with
        | string s => exact h
        | _ => cases h
  · rw [verdict, if_neg hfits] at h ⊢
    cases r with
    | ok v => cases h
    | error e =>
        cases e with
        | tooDeep => rfl
        | _ => cases h

/-- Strings are written as literals, in every layout. -/
theorem ofLifted_string (l : Json.Layout) (text : String) (next : Nat) :
    (Json.ofLifted l (.string text)).run next = .ok (Json.writeText text, next) :=
  Json.ofLifted_eq rfl rfl rfl

theorem runText_eq_verdict (text separator : String) (legacy : Bool) (observer : Observer) :
    (runText (program text separator) legacy observer).1 =
      (verdict (2 * ((Text.split text separator).length + 1) ≤ callBound)
        (String.join (Text.split text separator))).mapError Failure.ofStop := by
  obtain ⟨t, hread, ht⟩ := read_program text separator
  generalize hw : (Session.start legacy observer).world.note
    (.started (program text separator).length) = w
  have hscope : w.unplaced.scopes[0]? = some ⟨none, World.rootVars ⟨Identity.firstFree⟩, false⟩ :=
    by rw [← hw, World.unplaced, Array.getElem?_map]; rfl
  have hforgets := forgets_evaluate (callsForget callBound) ⟨0⟩ t w
  have hverdict := tree_verdict (s := ⟨0⟩) (n := callBound) text separator hscope
  rw [ht] at hforgets
  rw [hforgets] at hverdict
  have hrun : (runText (program text separator) legacy observer).1 =
      ((evaluate (callAt callBound) ⟨0⟩ t).run.run w).1.mapError Failure.ofStop := by
    have hresult := Session.run_result (Session.start legacy observer) (program text separator)
    rw [hw, Session.evaluateText, hread] at hresult
    exact hresult
  rw [hrun, eq_verdict_of_unplaced hverdict]

/-- The program that walks over the parts of a text, written with the text and the separator as they
are serialized, gives the concatenation of the parts in order.  Each part takes two nested calls and
the end of the list takes two more; if that is more than the limit, the run ends as too deep.  With an
empty separator the text itself is given. -/
theorem runText_program (text separator : String) (legacy : Bool) (observer : Observer) :
    (∀ l next, (Json.ofLifted l (.string text)).run next = .ok (Json.writeText text, next)) ∧
    (∀ l next,
      (Json.ofLifted l (.string separator)).run next = .ok (Json.writeText separator, next)) ∧
    (runText (program text separator) legacy observer).1 =
      (if 2 * ((Text.split text separator).length + 1) ≤ callBound then
        .ok (.string (String.join (Text.split text separator)))
      else .error .tooDeep) ∧
    separator.intercalate (Text.split text separator) = text ∧
    (runText (program text "") legacy observer).1 =
      (if 2 * (text.length + 1) ≤ callBound then .ok (.string text) else .error .tooDeep) := by
  have hrun (separator : String) : (runText (program text separator) legacy observer).1 =
      (if 2 * ((Text.split text separator).length + 1) ≤ callBound then
        .ok (.string (String.join (Text.split text separator)))
      else .error .tooDeep) := by
    rw [runText_eq_verdict, verdict]
    split <;> rfl
  have hempty := hrun ""
  rw [Text.length_split_empty, Text.join_split_empty] at hempty
  exact ⟨fun l => ofLifted_string l text, fun l => ofLifted_string l separator, hrun separator,
    Text.intercalate_split text separator, hempty⟩

end Walk

end VariantScript
