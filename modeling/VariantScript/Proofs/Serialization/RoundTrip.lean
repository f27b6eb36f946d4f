import VariantScript.Proofs.Serialization.Evaluation
import VariantScript.Proofs.Serialization.Reading
import VariantScript.Session

/-!
# Written data are programs

The written form of data is a program of one expression.  Running it, in any session, gives a value
alike the data with every list replaced by the array of its elements, and this value is written the
same.  The texts of numbers are assumed to be read back as the numbers they were written for.
-/

namespace VariantScript

open Syntax

namespace Json

/-! ## Host values and the data that they convey -/

/-- A host value whose text, in every layout and at every depth, has words that are read as an
expression that makes some data. -/
def Conveys (h : Host) (v : Value) : Prop :=
  ∃ ws, Phrase.ReadsExpression (Term.Makes · v) ws ∧
    ∀ l depth, Layout.IsBlank l → ∃ text, write l depth h = .ok text ∧ Spells text.toList ws

theorem conveys_number {x : Float} (hx : Number.IsPortable x) (i : Identity) :
    Conveys (Value.lowerNumber x) (.number i x) := by
  obtain ⟨s, y, hwrite, hsigned, hxy⟩ := Number.exists_write_lowerNumber hx
  generalize hs : s.toList = cs at hsigned
  cases hsigned with
  | plain hcs hread =>
      have hspells : Spells s.toList [⟨.number, String.ofList cs⟩] := by
        rw [hs]
        exact spells_numeral hcs
      refine ⟨_, Phrase.reads_number fun p => ?_, fun l depth _ => ⟨s, hwrite l depth, hspells⟩⟩
      exact Term.makes_number (by rwa [String.toList_ofList]) hxy _ p
  | @negated cs z hcs hread hz =>
      have hminus : (TokenKind.minus, '-') ∈ writtenMarks := by decide
      have hspells : Spells s.toList [⟨.minus, "-"⟩, ⟨.number, String.ofList cs⟩] := by
        rw [hs]
        exact .mark hminus (spells_numeral hcs)
      refine ⟨_, Phrase.reads_negated fun p q => ?_, fun l depth _ => ⟨s, hwrite l depth, hspells⟩⟩
      exact Term.makes_negated (by rwa [String.toList_ofList]) (by rwa [hz]) _ _ q p

theorem conveys_text (text : String) : Conveys (.text text) (.string text) :=
  ⟨[⟨.string, writeText text⟩], Phrase.reads_string fun p => Term.makes_string text _ p,
    fun _ _ _ => ⟨writeText text, by rw [write], spells_writeText text⟩⟩

theorem conveys_truth (flag : Bool) : Conveys (.truth flag) (Value.truth flag) :=
  ⟨[⟨.keyword (if flag then .trueWord else .falseWord), truthText flag⟩],
    Phrase.reads_truth fun _ => Term.makes_truth flag _,
    fun _ _ _ => ⟨truthText flag, by rw [write]; rfl, spells_truth flag⟩⟩

/-- The words of items, and their texts in every layout. -/
theorem exists_words {hs : List Host} {vs : List Value} (h : List.Forall₂ Conveys hs vs) :
    ∃ wss, List.Forall₂ (fun ws v => Phrase.ReadsExpression (Term.Makes · v) ws) wss vs ∧
      ∀ l depth, Layout.IsBlank l →
        ∃ texts, writeAll l depth hs = .ok texts ∧ SpellAll texts wss := by
  induction h with
  | nil => exact ⟨[], .nil, fun l depth _ => ⟨[], by rw [writeAll], .nil⟩⟩
  | cons hfirst hrest ih =>
      obtain ⟨ws, hreads, hwrites⟩ := hfirst
      obtain ⟨wss, hreadsAll, hwritesAll⟩ := ih
      refine ⟨ws :: wss, .cons hreads hreadsAll, fun l depth hl => ?_⟩
      obtain ⟨text, hwrite, hspells⟩ := hwrites l depth hl
      obtain ⟨texts, hwriteAll, hspellAll⟩ := hwritesAll l depth hl
      refine ⟨text :: texts, ?_, .cons hspells hspellAll⟩
      rw [writeAll, hwrite, hwriteAll]
      rfl

theorem conveys_list {hs : List Host} {vs : List Value} (h : List.Forall₂ Conveys hs vs)
    (i : Identity) : Conveys (.list hs) (.array i vs) := by
  obtain ⟨wss, hreads, hwrites⟩ := exists_words h
  refine ⟨_, Phrase.reads_array hreads fun p es hes => Term.makes_array hes _ i,
    fun l depth hl => ?_⟩
  obtain ⟨texts, hwrite, hspell⟩ := hwrites l (depth + 1) hl
  have hopening : (TokenKind.lsqb, '[') ∈ writtenMarks := by decide
  have hclosing : (TokenKind.rsqb, ']') ∈ writtenMarks := by decide
  refine ⟨l.enclose depth "[" "]" texts, ?_,
    spells_enclose hl depth hopening hclosing (.inl rfl) hspell⟩
  rw [write, hwrite]
  rfl

/-- The words of entries, and their texts in every layout. -/
theorem exists_entryWords {entries : List (Host × Host)} {slots : Slots}
    (h : List.Forall₂ (fun entry slot => entry.1 = .text slot.1 ∧ Conveys entry.2 slot.2) entries
      slots) :
    ∃ wss, List.Forall₂ (fun ws slot =>
        Phrase.ReadsAs (fun ts => (Phrase.field ts).outcome) (Field.Makes · slot) ws) wss slots ∧
      ∀ l depth, Layout.IsBlank l →
        ∃ texts, writeEntries l depth entries = .ok texts ∧ SpellAll texts wss := by
  induction h with
  | nil => exact ⟨[], .nil, fun l depth _ => ⟨[], by rw [writeEntries], .nil⟩⟩
  | @cons entry slot entries slots hfirst hrest ih =>
      obtain ⟨key, h⟩ := entry
      obtain ⟨name, v⟩ := slot
      obtain ⟨rfl, ws, hreads, hwrites⟩ := hfirst
      obtain ⟨wss, hreadsAll, hwritesAll⟩ := ih
      have hfield : Phrase.ReadsAs (fun ts => (Phrase.field ts).outcome) (Field.Makes · (name, v))
          (⟨.string, writeText name⟩ :: ⟨.colon, ":"⟩ :: ws) :=
        Phrase.reads_field hreads fun p e he => Term.makes_field name he _ _ p
      refine ⟨_, .cons hfield hreadsAll, fun l depth hl => ?_⟩
      obtain ⟨text, hwrite, hspells⟩ := hwrites l depth hl
      obtain ⟨texts, hwriteAll, hspellAll⟩ := hwritesAll l depth hl
      refine ⟨(writeText name ++ ": " ++ text) :: texts, ?_,
        .cons (spells_entry name hspells) hspellAll⟩
      rw [writeEntries, write, hwrite, hwriteAll]
      rfl

theorem conveys_map {entries : List (Host × Host)} {slots : Slots}
    (h : List.Forall₂ (fun entry slot => entry.1 = .text slot.1 ∧ Conveys entry.2 slot.2) entries
      slots) (hdistinct : slots.names.Nodup) (i : Identity) :
    Conveys (.map entries) (.record i slots) := by
  obtain ⟨wss, hreads, hwrites⟩ := exists_entryWords h
  refine ⟨_, Phrase.reads_record hreads fun p fs hfs => Term.makes_record hfs hdistinct _ i,
    fun l depth hl => ?_⟩
  obtain ⟨texts, hwrite, hspell⟩ := hwrites l (depth + 1) hl
  have hopening : (TokenKind.lbrace, '\x7b') ∈ writtenMarks := by decide
  have hclosing : (TokenKind.rbrace, '\x7d') ∈ writtenMarks := by decide
  refine ⟨l.enclose depth "\x7b" "\x7d" texts, ?_,
    spells_enclose hl depth hopening hclosing (.inr rfl) hspell⟩
  rw [write, hwrite]
  rfl

end Json

/-! ## Data are conveyed -/

namespace Value

/-- What a value is handed out as conveys the value with its lists replaced. -/
def IsConveyed (v : Value) : Prop :=
  ∃ h, v.lower = .ok h ∧ Json.Conveys h v.unlist

theorem IsData.isConveyed {v : Value} (h : v.IsData Number.IsPortable) : v.IsConveyed :=
  h.exists_lower
    ⟨Json.conveys_number, Json.conveys_text, Json.conveys_truth, Json.conveys_list, Json.conveys_map⟩

/-- Data are no foreign values, so lifting leaves them as they are. -/
theorem IsData.lift_eq {good : Float → Prop} {v : Value} (h : v.IsData good) (next : Nat) :
    v.lift.run next = .ok (v, next) := by
  cases h with
  | number | string | array | record => rfl
  | truth flag => cases flag <;> rfl
  | list hlist => cases hlist <;> rfl

theorem Alike.lift_eq {a b : Value} (h : Alike a b) (next : Nat) :
    a.lift.run next = .ok (a, next) := by
  cases h with
  | number | string | array | record => rfl
  | truth flag => cases flag <;> rfl

end Value

/-! ## Running written data -/

namespace Session

/-- A program of one expression gives what the expression makes. -/
theorem exists_run {t : Term} {v : Value} (ht : t.Makes v) {text : String} {p q : Option Position}
    (hread : Program.read text.toList = .ok (.node p (.program [.node q (.expressionStatement t)])))
    (s : Session) : ∃ r, (s.run text).1 = .ok r ∧ Value.Alike r v := by
  have hprogram (call : Value → List Value → Eval Value) (scope : ScopeId) (w : World) :
      ∃ r w', Eval.Gives (evaluate call scope (.node p (.program [.node q (.expressionStatement t)])))
        w r w' ∧ Value.Alike r v := by
    obtain ⟨r, w', hgives, halike⟩ := ht call scope w
    refine ⟨r, w', ?_, halike⟩
    have hstatement : Eval.Gives (evaluate call scope (.node q (.expressionStatement t))) w r w' := by
      rw [evaluate, evaluateForm]
      exact hgives.locate q
    rw [evaluate, evaluateForm]
    refine Eval.Gives.locate (Eval.Gives.bind (Eval.gives_pure () w) ?_) p
    rw [evaluateBody]
    exact hstatement.bind rfl
  obtain ⟨r, w', hgives, halike⟩ :=
    hprogram (callAt callBound) s.scope (s.world.note (.started text.length))
  have htext : { s with world := s.world.note (.started text.length) }.evaluateText text =
      (.ok r, { s with world := w' }) := by
    unfold Eval.Gives at hgives
    unfold evaluateText evaluateTerm perform
    simp only [hread, hgives]
    rfl
  refine ⟨r, ?_, halike⟩
  unfold run
  rw [htext]
  rfl

end Session

namespace Json

/-- The layout that is asked for by an indentation, if one is. -/
def Layout.ofIndent (indent : Option Int) : Layout :=
  indent.elim .oneLine .ofWidth

theorem Layout.isBlank_ofIndent (indent : Option Int) : (Layout.ofIndent indent).IsBlank := by
  cases indent with
  | none => trivial
  | some width => exact Layout.isBlank_ofWidth width

/-- What is not changed by lifting is written as it is handed out. -/
theorem ofLifted_eq {l : Layout} {v : Value} {h : Host} {text : String} {next : Nat}
    (hlift : v.lift.run next = .ok (v, next)) (hlower : v.lower = .ok h)
    (hwrite : write l 0 h = .ok text) : (ofLifted l v).run next = .ok (text, next) := by
  have hvalue : ofValue l v = .ok text := by
    rw [ofValue, hlower]
    exact congrArg (Except.mapError MarshalError.stop) hwrite
  unfold ofLifted
  rw [StateT.run_bind, hlift]
  change StateT.run (liftM (ofValue l v) : Making String) next = _
  rw [hvalue]
  rfl

/-- Written data are a program of one expression.  In every session it gives a value that is equal to
the data with every list replaced by the array of its elements, with the keys of records in the same
order, and that is written the same. -/
theorem ofLifted_isProgram {v : Value} (hv : v.IsData Number.IsPortable) (indent : Option Int)
    (next : Nat) :
    ∃ text, (ofLifted (Layout.ofIndent indent) v).run next = .ok (text, next) ∧
      (∃ p q e, Program.read text.toList =
        .ok (.node p (.program [.node q (.expressionStatement e)]))) ∧
      ∀ s : Session, ∃ r, (s.run text).1 = .ok r ∧
        (∀ legacy, Value.structurallyEqual legacy r v.unlist = true) ∧ Value.Alike r v.unlist ∧
        ∀ next, (ofLifted (Layout.ofIndent indent) r).run next = .ok (text, next) := by
  obtain ⟨h, hlower, ws, hreads, hwrites⟩ := hv.isConveyed
  obtain ⟨text, hwrite, hspells⟩ := hwrites _ 0 (Layout.isBlank_ofIndent indent)
  obtain ⟨p, q, e, hread, he⟩ := Program.read_of_words hspells hreads
  refine ⟨text, ofLifted_eq (hv.lift_eq next) hlower hwrite, ⟨p, q, e, hread⟩, fun s => ?_⟩
  obtain ⟨r, hrun, halike⟩ := Session.exists_run he hread s
  have hr : r.lower = .ok h := by rw [halike.lower_eq, hv.lower_unlist, hlower]
  have hequal (legacy : Bool) : Value.structurallyEqual legacy r v.unlist = true :=
    Value.structurallyEqual_iff.2 (halike.equalParts legacy)
  exact ⟨r, hrun, hequal, halike, fun next => ofLifted_eq (halike.lift_eq next) hr hwrite⟩

/-- A list of a fraction and a text that looks like a comment, under a key with a quote, written over
lines. -/
theorem ofLifted_isProgram_nested :
    ∃ v : Value, v.IsData Number.IsPortable ∧
      v.unlist = .record ⟨10⟩
        [("a\"", .array ⟨14⟩ [.number ⟨12⟩ (-2.5), .string "// \\"]), ("", .truth true)] ∧
      ∃ text, (ofLifted (Layout.ofIndent (some (-1))) v).run 20 = .ok (text, 20) ∧
        ∀ s : Session, ∃ r, (s.run text).1 = .ok r ∧
          Value.structurallyEqual false r v.unlist = true := by
  have hnumber : Number.IsPortable (-2.5) := ⟨by rfl, by decide +kernel⟩
  let list : Value := .cell 13 (.number ⟨12⟩ (-2.5)) (.cell 15 (.string "// \\") .emptyList)
  have hlist : list.IsData Number.IsPortable :=
    .list (.head (.head .empty))
      (List.forall_mem_cons.2 ⟨.number hnumber, List.forall_mem_cons.2 ⟨.string _, nofun⟩⟩)
  have hv : (Value.record ⟨10⟩ [("a\"", list), ("", .truth true)]).IsData Number.IsPortable :=
    .record (by decide)
      (List.forall_mem_cons.2 ⟨hlist, List.forall_mem_cons.2 ⟨.truth true, nofun⟩⟩)
  obtain ⟨text, hwrite, -, hrun⟩ := ofLifted_isProgram hv (some (-1)) 20
  refine ⟨_, hv, rfl, text, hwrite, fun s => ?_⟩
  obtain ⟨r, hr, hequal, -⟩ := hrun s
  exact ⟨r, hr, hequal false⟩

end Json

end VariantScript
