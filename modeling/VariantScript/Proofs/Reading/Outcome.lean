import VariantScript.Syntax.Phrase

/-!
# Outcomes of reading

What a reader answers, without the bound that its recursion ends by: a phrase and the tokens behind
it, or the tokens from the first one on that cannot be read.  Every reader of phrases has an
equation between outcomes; the proofs about reading rewrite with these equations and do not open
the readers.
-/

namespace VariantScript.Syntax

/-- A phrase and the tokens behind it, or the tokens that reading fails at. -/
abbrev Outcome (α : Type) := Except (List Token) (α × List Token)

namespace Outcome

variable {α β γ : Type}

/-- The outcome with its phrase changed. -/
def map (o : Outcome α) (f : α → β) : Outcome β :=
  match o with
  | .ok (value, rest) => .ok (f value, rest)
  | .error rest => .error rest

/-- Goes on behind a phrase. -/
def andThen (o : Outcome α) (f : α → List Token → Outcome β) : Outcome β :=
  match o with
  | .ok (value, rest) => f value rest
  | .error rest => .error rest

/-- A failure here or where another reading failed, whichever lies further on. -/
def orFurther (o : Outcome α) (other : List Token) : Outcome α :=
  match o with
  | .ok p => .ok p
  | .error rest => .error (if other.length < rest.length then other else rest)

@[simp] theorem map_ok (value : α) (rest : List Token) (f : α → β) :
    map (.ok (value, rest)) f = .ok (f value, rest) := rfl

@[simp] theorem map_error (rest : List Token) (f : α → β) : map (.error rest) f = .error rest := rfl

@[simp] theorem andThen_ok (value : α) (rest : List Token) (f : α → List Token → Outcome β) :
    andThen (.ok (value, rest)) f = f value rest := rfl

@[simp] theorem andThen_error (rest : List Token) (f : α → List Token → Outcome β) :
    andThen (.error rest) f = .error rest := rfl

@[simp] theorem orFurther_ok (p : α × List Token) (other : List Token) :
    orFurther (.ok p) other = .ok p := rfl

@[simp] theorem orFurther_error (rest other : List Token) :
    orFurther (.error rest : Outcome α) other =
      .error (if other.length < rest.length then other else rest) := rfl

theorem map_eq_andThen (o : Outcome α) (f : α → β) :
    map o f = andThen o fun value rest => .ok (f value, rest) := by
  cases o <;> rfl

end Outcome

namespace Reply

variable {α β : Type} {m n : Nat}

/-- The outcome of a reply. -/
def outcome (r : Reply α n) : Outcome α :=
  match r with
  | .ok value rest _ => .ok (value, rest)
  | .fail rest => .error rest

@[simp] theorem outcome_ok (value : α) (rest : List Token) (short : rest.length < n) :
    (Reply.ok value rest short).outcome = .ok (value, rest) := rfl

@[simp] theorem outcome_fail (rest : List Token) :
    (Reply.fail rest : Reply α n).outcome = .error rest := rfl

@[simp] theorem outcome_done (value : α) (rest : List Token) (short : rest.length < n) :
    (Reply.done value rest short).outcome = .ok (value, rest) := rfl

@[simp] theorem outcome_map (r : Reply α m) (f : α → β) (h : m ≤ n) :
    (r.map f h).outcome = r.outcome.map f := by
  cases r <;> rfl

@[simp] theorem outcome_loosen (r : Reply α m) (h : m ≤ n) : (r.loosen h).outcome = r.outcome := by
  cases r <;> rfl

@[simp] theorem outcome_orFurther (r : Reply α n) (other : List Token) :
    (r.orFurther other).outcome = r.outcome.orFurther other := by
  cases r <;> rfl

theorem outcome_andThen (r : Reply α m)
    (f : (value : α) → (rest : List Token) → rest.length < m → Reply β n)
    (k : α → List Token → Outcome β)
    (h : ∀ value rest short, (f value rest short).outcome = k value rest) :
    (r.andThen f).outcome = r.outcome.andThen k := by
  cases r with
  | ok value rest short => exact h value rest short
  | fail rest => rfl

/-- A phrase that was read is not empty, or at least not longer than what there was to read. -/
theorem length_lt_of_outcome {r : Reply α n} {value : α} {rest : List Token}
    (h : r.outcome = .ok (value, rest)) : rest.length < n := by
  cases r with
  | ok v rs short =>
      simp only [outcome_ok, Except.ok.injEq, Prod.mk.injEq] at h
      rw [← h.2]
      exact short
  | fail rs => simp at h

end Reply

namespace Phrase

variable {α : Type}

/-- Reads one token of a kind. -/
def token (kind : TokenKind) (ts : List Token) : Outcome Token :=
  match ts with
  | t :: rest => if t.kind = kind then .ok (t, rest) else .error (t :: rest)
  | [] => .error []

theorem outcome_expect (kind : TokenKind) (ts : List Token) :
    (expect kind ts).outcome = token kind ts := by
  cases ts with
  | nil => rfl
  | cons t rest =>
      simp only [expect, token]
      split <;> rfl

theorem token_short {kind : TokenKind} {ts : List Token} {t : Token} {rest : List Token}
    (h : token kind ts = .ok (t, rest)) : rest.length < ts.length := by
  rw [← outcome_expect] at h
  exact Reply.length_lt_of_outcome h

/-- Reads on behind an item: a comma and more items, which `items` reads, or a closing mark. -/
def itemsRest (close : TokenKind) (items : List Token → Outcome (List α)) (x : α)
    (behind : List Token) : Outcome (List α) :=
  match behind with
  | [] => .error []
  | u :: more =>
      if u.kind = .comma then (items more).map (x :: ·)
      else if u.kind = close then .ok ([x], more)
      else .error (u :: more)

/-- Reads items with commas between them up to a closing mark; `items` reads on behind a comma. -/
def itemsStep (close : TokenKind) (item : List Token → Outcome α)
    (items : List Token → Outcome (List α)) (ts : List Token) : Outcome (List α) :=
  match ts with
  | [] => .error []
  | t :: rest =>
      if t.kind = close then .ok ([], rest)
      else (item (t :: rest)).andThen (itemsRest close items)

/-- Reads an item, and on behind it. -/
theorem outcome_items {close : TokenKind} {t : Token} {rest : List Token}
    (item : Reply α (t :: rest).length) (items : (ts : List Token) → Reply (List α) ts.length) :
    (item.andThen (n := (t :: rest).length) fun x behind short =>
      match behind with
      | [] => .fail []
      | u :: more =>
          if u.kind = .comma then (items more).map (x :: ·) (Nat.le_of_succ_le (Nat.le_of_lt short))
          else if u.kind = close then .done [x] more (Nat.lt_of_succ_lt short)
          else .fail (u :: more)).outcome =
      item.outcome.andThen (itemsRest close fun ts => (items ts).outcome) := by
  refine Reply.outcome_andThen _ _ _ fun x behind short => ?_
  cases behind with
  | nil => rfl
  | cons u more =>
      simp only [itemsRest]
      split
      · simp
      · split <;> rfl

/-- Reads a key, a colon and what `value` reads, or a name alone. -/
def fieldStep {β : Type} (value : List Token → Outcome α) (make : Token → α → β)
    (shorthand : Token → β) (ts : List Token) : Outcome β :=
  match ts with
  | [] => .error []
  | t :: rest =>
      if t.kind = .name ∨ t.kind = .string then
        match rest with
        | u :: more =>
            if u.kind = .colon then (value more).map (make t)
            else if t.kind = .name then .ok (shorthand t, u :: more)
            else .error (u :: more)
        | [] => if t.kind = .name then .ok (shorthand t, []) else .error []
      else .error (t :: rest)

/-! ## Patterns -/

theorem outcome_pattern (ts : List Token) :
    (pattern ts).outcome =
      match ts with
      | [] => .error []
      | t :: rest =>
          match t.kind with
          | .name => .ok (bindName t, rest)
          | .lsqb => (patterns .rsqb rest).outcome.map (.array (some t.pos))
          | .lbrace => (patternFields rest).outcome.map (.record (some t.pos))
          | _ => .error (t :: rest) := by
  cases ts with
  | nil => rw [pattern]; rfl
  | cons t rest =>
      rw [pattern]
      dsimp only
      cases t.kind <;> simp

theorem outcome_patterns (close : TokenKind) (ts : List Token) :
    (patterns close ts).outcome =
      itemsStep close (fun ts => (pattern ts).outcome) (fun ts => (patterns close ts).outcome)
        ts := by
  cases ts with
  | nil => rw [patterns]; rfl
  | cons t rest =>
      rw [patterns]
      simp only [itemsStep]
      split
      · rfl
      · exact outcome_items _ _

theorem outcome_patternFields (ts : List Token) :
    (patternFields ts).outcome =
      itemsStep .rbrace (fun ts => (patternField ts).outcome) (fun ts => (patternFields ts).outcome)
        ts := by
  cases ts with
  | nil => rw [patternFields]; rfl
  | cons t rest =>
      rw [patternFields]
      simp only [itemsStep]
      split
      · rfl
      · exact outcome_items _ _

theorem outcome_patternField (ts : List Token) :
    (patternField ts).outcome =
      fieldStep (fun ts => (pattern ts).outcome) (fun t => .mk (some t.pos) (keyOf t))
        patternField.shorthand ts := by
  -- The reader looks two tokens ahead, so one token alone is a case of its own.
  match ts with
  | [] => rw [patternField]; rfl
  | [t] =>
      rw [patternField]
      simp only [fieldStep]
      by_cases hn : t.kind = .name
      · simp [hn]
      · by_cases hs : t.kind = .string <;> simp [hn, hs]
  | t :: u :: rest =>
      rw [patternField]
      simp only [fieldStep]
      split
      · split
        · simp
        · split <;> rfl
      · rfl

theorem outcome_params (ts : List Token) :
    (params ts).outcome =
      (token .lpar ts).andThen fun t rest =>
        (patterns .rpar rest).outcome.map fun ps => ⟨some t.pos, ps⟩ := by
  rw [params, ← outcome_expect]
  exact Reply.outcome_andThen _ _ _ fun t rest short => by simp

/-! ## Expressions -/

/-- The reader of the operands that a level joins. -/
def operand (l : Level) (ts : List Token) : Reply Term ts.length :=
  match l.tighter? with
  | some tighter => chain tighter ts
  | none => unary ts

/-- What an expression that starts with a parenthesis is, by its reading as parameters and its
reading as an operand. -/
def parenthesisStep (t : Token) (parameters : Outcome Params) (operand : Outcome Term) :
    Outcome Term :=
  match parameters with
  | .ok (ps, a :: behind) =>
      if a.kind = .arrow then
        (arrowBody behind).outcome.map fun body => .node (some t.pos) (.arrow ps body)
      else operand.orFurther (a :: behind)
  | .ok (_, []) => operand.orFurther []
  | .error behind => operand.orFurther behind

theorem outcome_expression (ts : List Token) :
    (expression ts).outcome =
      match ts with
      | t :: u :: rest =>
          if t.kind = .name ∧ u.kind = .arrow then
            (arrowBody rest).outcome.map fun body =>
              .node (some t.pos) (.arrow ⟨some t.pos, [bindName t]⟩ body)
          else if t.kind = .lpar then
            parenthesisStep t (params (t :: u :: rest)).outcome
              (conditional (t :: u :: rest)).outcome
          else (conditional (t :: u :: rest)).outcome
      | [t] => (conditional [t]).outcome
      | [] => .error [] := by
  match ts with
  | [] => rw [expression]; rfl
  | [t] => rw [expression]
  | t :: u :: rest =>
      rw [expression]
      simp only
      split
      · simp
      · split
        -- In front of an arrow the parameters count; elsewhere the reading that got further.
        · cases params (t :: u :: rest) with
          | fail behind => simp [parenthesisStep]
          | ok ps behind short =>
              cases behind with
              | nil => simp [parenthesisStep]
              | cons a behind =>
                  simp only [Reply.outcome_ok, parenthesisStep]
                  split <;> simp
        · rfl

theorem outcome_arrowBody (ts : List Token) :
    (arrowBody ts).outcome =
      match ts with
      | t :: rest =>
          if t.kind = .lbrace ∧ ¬ opensRecord rest then (block (t :: rest)).outcome
          else (expression (t :: rest)).outcome
      | [] => .error [] := by
  cases ts with
  | nil => rw [arrowBody]; rfl
  | cons t rest =>
      rw [arrowBody]
      simp only
      split <;> rfl

/-- Reads on behind the operand of a conditional. -/
def conditionalRest (start : Option Position) (condition : Term) (behind : List Token) :
    Outcome Term :=
  match behind with
  | q :: rest =>
      if q.kind = .qmark then
        (expression rest).outcome.andThen fun yes behindYes =>
          (token .colon behindYes).andThen fun _ other =>
            (expression other).outcome.map fun no => .node start (.conditional condition yes no)
      else .ok (condition, q :: rest)
  | [] => .ok (condition, [])

theorem outcome_conditional (ts : List Token) :
    (conditional ts).outcome = (chain .or ts).outcome.andThen (conditionalRest (startOf ts)) := by
  rw [conditional]
  refine Reply.outcome_andThen _ _ _ fun condition behind short => ?_
  cases behind with
  | nil => rfl
  | cons q rest =>
      simp only [conditionalRest]
      split
      · refine Reply.outcome_andThen _ _ _ fun yes behindYes _ => ?_
        rw [← outcome_expect]
        exact Reply.outcome_andThen _ _ _ fun _ other _ => by simp
      · rfl

theorem outcome_chain (l : Level) (ts : List Token) :
    (chain l ts).outcome =
      (operand l ts).outcome.andThen fun left behind =>
        (chainRest l (startOf ts) left behind).outcome := by
  rw [chain]
  unfold operand
  cases hl : l.tighter? with
  | none => exact Reply.outcome_andThen _ _ _ fun left behind short => by simp
  | some tighter => exact Reply.outcome_andThen _ _ _ fun left behind short => by simp

theorem outcome_chainRest (l : Level) (start : Option Position) (left : Term) (ts : List Token) :
    (chainRest l start left ts).outcome =
      match ts with
      | op :: rest =>
          if l.accepts op.kind then
            (operand l rest).outcome.andThen fun right behind =>
              (chainRest l start (.node start (l.combine op left right)) behind).outcome
          else .ok (left, op :: rest)
      | [] => .ok (left, []) := by
  cases ts with
  | nil => rw [chainRest]; rfl
  | cons op rest =>
      rw [chainRest]
      unfold operand
      simp only
      split
      · cases hl : l.tighter? with
        | none => exact Reply.outcome_andThen _ _ _ fun left behind short => by simp
        | some tighter => exact Reply.outcome_andThen _ _ _ fun left behind short => by simp
      · rfl

theorem outcome_unary (ts : List Token) :
    (unary ts).outcome =
      match ts with
      | t :: rest =>
          if t.kind = .bang then
            (unary rest).outcome.map fun e => .node (some t.pos) (.unary .not t.pos e)
          else if t.kind = .minus then
            (unary rest).outcome.map fun e => .node (some t.pos) (.unary .negate t.pos e)
          else
            (primary (t :: rest)).outcome.andThen fun e behind =>
              (postfixRest (some t.pos) e behind).outcome
      | [] => .error [] := by
  cases ts with
  | nil => rw [unary]; rfl
  | cons t rest =>
      rw [unary]
      simp only
      split
      · simp
      · split
        · simp
        · exact Reply.outcome_andThen _ _ _ fun e behind short => by simp

theorem outcome_postfixRest (start : Option Position) (e : Term) (ts : List Token) :
    (postfixRest start e ts).outcome =
      match ts with
      | t :: rest =>
          if t.kind = .lpar then
            (expressions .rpar rest).outcome.andThen fun args behind =>
              (postfixRest start (.node start (.call e args)) behind).outcome
          else if t.kind = .dot then
            (token .name rest).andThen fun name behind =>
              (postfixRest start (.node start (.member e name.spelled)) behind).outcome
          else if t.kind = .lsqb then
            (expression rest).outcome.andThen fun i behind =>
              (token .rsqb behind).andThen fun _ more =>
                (postfixRest start (.node start (.index e i)) more).outcome
          else .ok (e, t :: rest)
      | [] => .ok (e, []) := by
  cases ts with
  | nil => rw [postfixRest]; rfl
  | cons t rest =>
      rw [postfixRest]
      simp only
      split
      · exact Reply.outcome_andThen _ _ _ fun args behind short => by simp
      · split
        · rw [← outcome_expect]
          exact Reply.outcome_andThen _ _ _ fun name behind short => by simp
        · split
          · refine Reply.outcome_andThen _ _ _ fun i behind short => ?_
            rw [← outcome_expect]
            exact Reply.outcome_andThen _ _ _ fun _ more _ => by simp
          · rfl

theorem outcome_primary (ts : List Token) :
    (primary ts).outcome =
      match ts with
      | t :: rest =>
          match t.kind with
          | .number => .ok (.node (some t.pos) (.number t.spelled), rest)
          | .string => .ok (.node (some t.pos) (.string t.spelled), rest)
          | .name => .ok (.node (some t.pos) (.reference t.spelled), rest)
          | .keyword .trueWord => .ok (.node (some t.pos) (.truth true), rest)
          | .keyword .falseWord => .ok (.node (some t.pos) (.truth false), rest)
          | .lsqb =>
              (expressions .rsqb rest).outcome.map fun es => .node (some t.pos) (.array es)
          | .lbrace => (fields rest).outcome.map fun fs => .node (some t.pos) (.record fs)
          | .keyword .functionWord =>
              (params rest).outcome.andThen fun ps behind =>
                (block behind).outcome.map fun body =>
                  .node (some t.pos) (.functionExpression ps body)
          | .lpar =>
              (expression rest).outcome.andThen fun e behind =>
                (token .rpar behind).map fun _ => e
          | _ => .error (t :: rest)
      | [] => .error [] := by
  cases ts with
  | nil => rw [primary]; rfl
  | cons t rest =>
      rw [primary]
      dsimp only
      cases t.kind with
      | keyword word =>
          cases word with
          | functionWord => exact Reply.outcome_andThen _ _ _ fun ps behind short => by simp
          | _ => simp
      | lpar =>
          refine Reply.outcome_andThen _ _ _ fun e behind short => ?_
          rw [← outcome_expect]
          simp
      | _ => simp

theorem outcome_expressions (close : TokenKind) (ts : List Token) :
    (expressions close ts).outcome =
      itemsStep close (fun ts => (expression ts).outcome)
        (fun ts => (expressions close ts).outcome) ts := by
  cases ts with
  | nil => rw [expressions]; rfl
  | cons t rest =>
      rw [expressions]
      simp only [itemsStep]
      split
      · rfl
      · exact outcome_items _ _

theorem outcome_fields (ts : List Token) :
    (fields ts).outcome =
      itemsStep .rbrace (fun ts => (field ts).outcome) (fun ts => (fields ts).outcome) ts := by
  cases ts with
  | nil => rw [fields]; rfl
  | cons t rest =>
      rw [fields]
      simp only [itemsStep]
      split
      · rfl
      · exact outcome_items _ _

theorem outcome_field (ts : List Token) :
    (field ts).outcome =
      fieldStep (fun ts => (expression ts).outcome) (fun t => .mk (some t.pos) (keyOf t))
        field.shorthand ts := by
  match ts with
  | [] => rw [field]; rfl
  | [t] =>
      rw [field]
      simp only [fieldStep]
      by_cases hn : t.kind = .name
      · simp [hn]
      · by_cases hs : t.kind = .string <;> simp [hn, hs]
  | t :: u :: rest =>
      rw [field]
      simp only [fieldStep]
      split
      · split
        · simp
        · split <;> rfl
      · rfl

/-! ## Statements -/

theorem outcome_block (ts : List Token) :
    (block ts).outcome =
      (token .lbrace ts).andThen fun t rest =>
        (statements rest).outcome.andThen fun body behind =>
          (token .rbrace behind).map fun _ => .node (some t.pos) (.block body) := by
  rw [block, ← outcome_expect]
  refine Reply.outcome_andThen _ _ _ fun t rest _ => ?_
  refine Reply.outcome_andThen _ _ _ fun body behind _ => ?_
  rw [← outcome_expect]
  simp

/-- Reads on behind a statement that ends in a semicolon, if it has one. -/
def statementsRest (s : Term) (behind : List Token) : Outcome (List Term) :=
  match behind with
  | [] => .ok ([s], [])
  | u :: more =>
      if u.kind = .semicolon then (statements more).outcome.map (s :: ·)
      else .ok ([s], u :: more)

theorem outcome_statements (ts : List Token) :
    (statements ts).outcome =
      match ts with
      | [] => .ok ([], [])
      | t :: rest =>
          if t.kind = .semicolon then (statements rest).outcome
          else if t.kind = .rbrace then .ok ([], t :: rest)
          else if t.kind = .keyword .ifWord then
            (ifStatement (t :: rest)).outcome.andThen fun s behind =>
              (statements behind).outcome.map (s :: ·)
          else if t.kind = .keyword .functionWord ∧ namesFunction rest then
            (functionDeclaration (t :: rest)).outcome.andThen fun s behind =>
              (statements behind).outcome.map (s :: ·)
          else (simpleStatement (t :: rest)).outcome.andThen statementsRest := by
  cases ts with
  | nil => rw [statements]; rfl
  | cons t rest =>
      rw [statements]
      simp only
      split
      · simp
      · split
        · rfl
        · split
          · exact Reply.outcome_andThen _ _ _ fun s behind _ => by simp
          · split
            · exact Reply.outcome_andThen _ _ _ fun s behind _ => by simp
            · refine Reply.outcome_andThen _ _ _ fun s behind _ => ?_
              cases behind with
              | nil => rfl
              | cons u more =>
                  simp only [statementsRest]
                  split <;> simp

/-- Reads on behind the block of a condition that stands at `pos`. -/
def ifRest (pos : Position) (condition yes : Term) (behind : List Token) : Outcome Term :=
  match behind with
  | e :: rest =>
      if e.kind = .keyword .elseWord then
        (if startsIf rest then (ifStatement rest).outcome else (block rest).outcome).map fun no =>
          .node (some pos) (.ifThenElse condition yes no)
      else .ok (.node (some pos) (.ifThen condition yes), e :: rest)
  | [] => .ok (.node (some pos) (.ifThen condition yes), [])

theorem outcome_ifStatement (ts : List Token) :
    (ifStatement ts).outcome =
      (token (.keyword .ifWord) ts).andThen fun t afterIf =>
        (token .lpar afterIf).andThen fun _ inside =>
          (expression inside).outcome.andThen fun condition behindCondition =>
            (token .rpar behindCondition).andThen fun _ opening =>
              (block opening).outcome.andThen (ifRest t.pos condition) := by
  rw [ifStatement, ← outcome_expect]
  refine Reply.outcome_andThen _ _ _ fun t afterIf _ => ?_
  rw [← outcome_expect]
  refine Reply.outcome_andThen _ _ _ fun _ inside _ => ?_
  refine Reply.outcome_andThen _ _ _ fun condition behindCondition _ => ?_
  rw [← outcome_expect]
  refine Reply.outcome_andThen _ _ _ fun _ opening _ => ?_
  refine Reply.outcome_andThen _ _ _ fun yes behind _ => ?_
  cases behind with
  | nil => rfl
  | cons e rest =>
      simp only [ifRest]
      split
      · split <;> simp
      · rfl

theorem outcome_functionDeclaration (ts : List Token) :
    (functionDeclaration ts).outcome =
      (token (.keyword .functionWord) ts).andThen fun t afterWord =>
        (token .name afterWord).andThen fun name afterName =>
          (params afterName).outcome.andThen fun ps behind =>
            (block behind).outcome.map fun body =>
              .node (some t.pos) (.functionDeclaration name.spelled ps body) := by
  rw [functionDeclaration, ← outcome_expect]
  refine Reply.outcome_andThen _ _ _ fun t afterWord _ => ?_
  rw [← outcome_expect]
  refine Reply.outcome_andThen _ _ _ fun name afterName _ => ?_
  exact Reply.outcome_andThen _ _ _ fun ps behind _ => by simp

theorem outcome_simpleStatement (ts : List Token) :
    (simpleStatement ts).outcome =
      match ts with
      | [] => .error []
      | t :: rest =>
          match t.kind with
          | .keyword .constWord | .keyword .letWord | .keyword .varWord =>
              (pattern rest).outcome.andThen fun p behind =>
                (token .equal behind).andThen fun _ more =>
                  (expression more).outcome.map fun e => .node (some t.pos) (.declaration p e)
          | .keyword .returnWord =>
              if endsStatement rest then .ok (.node (some t.pos) .returnNothing, rest)
              else (expression rest).outcome.map fun e => .node (some t.pos) (.returnValue e)
          | .keyword .throwWord =>
              (expression rest).outcome.map fun e => .node (some t.pos) (.throwValue e)
          | _ =>
              (expression (t :: rest)).outcome.map fun e =>
                .node (some t.pos) (.expressionStatement e) := by
  have declares (t : Token) (rest : List Token) :
      ((pattern rest).andThen fun p behind _ =>
        (expect .equal behind).andThen fun _ more _ =>
          (expression more).map (n := (t :: rest).length) fun e =>
            Term.node (some t.pos) (.declaration p e)).outcome =
      (pattern rest).outcome.andThen fun p behind =>
        (token .equal behind).andThen fun _ more =>
          (expression more).outcome.map fun e => .node (some t.pos) (.declaration p e) := by
    refine Reply.outcome_andThen _ _ _ fun p behind _ => ?_
    rw [← outcome_expect]
    exact Reply.outcome_andThen _ _ _ fun _ more _ => by simp
  cases ts with
  | nil => rw [simpleStatement]; rfl
  | cons t rest =>
      rw [simpleStatement]
      dsimp only
      cases t.kind with
      | keyword word =>
          cases word with
          | constWord | letWord | varWord => exact declares t rest
          | returnWord =>
              dsimp only
              split <;> simp
          | _ => simp
      | _ => simp

theorem program_eq (ts : List Token) :
    program ts =
      match (statements ts).outcome with
      | .ok (body, []) => .ok (.node (startOf ts) (.program body))
      | .ok (_, t :: rest) => .error (t :: rest)
      | .error rest => .error rest := by
  unfold program
  cases statements ts with
  | fail rest => rfl
  | ok body rest short => cases rest <;> rfl

end Phrase

end VariantScript.Syntax
