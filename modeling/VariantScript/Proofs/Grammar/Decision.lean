import VariantScript.Proofs.Grammar.Correspondence
import VariantScript.Proofs.Grammar.Genuine
import VariantScript.Proofs.Grammar.Heads
import VariantScript.Proofs.Grammar.Subtrees

/-!
# Deciding between blocks and records

Behind an arrow, braces that are empty or hold one name derive a block and a record.  A derivation
decides if it takes them for the block.  What can be derived at all has a derivation that decides.
-/

namespace VariantScript.Syntax.Grammar

open Node (tree)

/-- Derivations that take tokens where a block could stand for an expression only if they fit. -/
inductive DerivesIf (Fits : List Token → Prop) : Expansion → List Token → List Node → Prop where
  | empty : DerivesIf Fits .empty [] []
  | mark {t : Token} {kind : TokenKind} (ht : t.Is kind) : DerivesIf Fits (.mark kind) [t] []
  | terminal {t : Token} {kind : TokenKind} (ht : t.Is kind) :
      DerivesIf Fits (.terminal kind) [t] [.leaf kind t.spelled]
  | rule {r : Rule} {e : Expansion} {label? : Option String} {w : List Token} {xs : List Node}
      (mem : (e, label?) ∈ r.alternatives) (body : DerivesIf Fits e w xs) :
      DerivesIf Fits (.rule r) w (r.build label? w xs)
  | seq {a b : Expansion} {u v : List Token} {xs ys : List Node}
      (first : DerivesIf Fits a u xs) (second : DerivesIf Fits b v ys) :
      DerivesIf Fits (.seq a b) (u ++ v) (xs ++ ys)
  | eitherFirst {a b : Expansion} {w : List Token} {xs : List Node} (h : DerivesIf Fits a w xs) :
      DerivesIf Fits (.either a b) w xs
  | eitherSecond {a b : Expansion} {w : List Token} {xs : List Node} (h : DerivesIf Fits b w xs)
      (hfits : a = .rule .block → b = .rule .expression → Fits w) :
      DerivesIf Fits (.either a b) w xs
  | optionalNone {a : Expansion} : DerivesIf Fits (.optional a) [] []
  | optionalSome {a : Expansion} {w : List Token} {xs : List Node} (h : DerivesIf Fits a w xs) :
      DerivesIf Fits (.optional a) w xs
  | manyNone {a : Expansion} : DerivesIf Fits (.many a) [] []
  | manyMore {a : Expansion} {u v : List Token} {xs ys : List Node}
      (first : DerivesIf Fits a u xs) (others : DerivesIf Fits (.many a) v ys) :
      DerivesIf Fits (.many a) (u ++ v) (xs ++ ys)

/-- Derivations that take what could be both for a block. -/
abbrev Decides : Expansion → List Token → List Node → Prop :=
  DerivesIf fun w => ¬ IsAmbiguous w

variable {Fits : List Token → Prop} {e : Expansion} {r : Rule} {label? : Option String}
  {w : List Token} {x : Node} {xs : List Node}

theorem DerivesIf.derives (h : DerivesIf Fits e w xs) : Derives e w xs := by
  induction h with
  | empty => exact .empty
  | mark ht => exact .mark ht
  | terminal ht => exact .terminal ht
  | rule mem _ ih => exact .rule mem ih
  | seq _ _ ihFirst ihSecond => exact .seq ihFirst ihSecond
  | eitherFirst _ ih => exact .eitherFirst ih
  | eitherSecond _ _ ih => exact .eitherSecond ih
  | optionalNone => exact .optionalNone
  | optionalSome _ ih => exact .optionalSome ih
  | manyNone => exact .manyNone
  | manyMore _ _ ihFirst ihOthers => exact .manyMore ihFirst ihOthers

/-- Derivations in which everything fits are all derivations. -/
theorem Derives.derivesIf (h : Derives e w xs) (hfits : ∀ w, Fits w) : DerivesIf Fits e w xs := by
  induction h with
  | empty => exact .empty
  | mark ht => exact .mark ht
  | terminal ht => exact .terminal ht
  | rule mem _ ih => exact .rule mem ih
  | seq _ _ ihFirst ihSecond => exact .seq ihFirst ihSecond
  | eitherFirst _ ih => exact .eitherFirst ih
  | eitherSecond _ ih => exact .eitherSecond ih fun _ _ => hfits _
  | optionalNone => exact .optionalNone
  | optionalSome _ ih => exact .optionalSome ih
  | manyNone => exact .manyNone
  | manyMore _ _ ihFirst ihOthers => exact .manyMore ihFirst ihOthers

/-! ## Derivations that decide -/

theorem DerivesIf.of_mem {ys : List Node} (mem : (e, label?) ∈ r.alternatives)
    (body : DerivesIf Fits e w xs) (hys : r.build label? w xs = ys) :
    DerivesIf Fits (.rule r) w ys := by
  rw [← hys]
  exact .rule mem body

theorem DerivesIf.operand {l : Phrase.Level} (h : DerivesIf Fits (.rule (Rule.operand l)) w [x]) :
    DerivesIf Fits (.rule (.level l)) w [x] :=
  .of_mem (.head _) h rfl

/-- A name is an expression. -/
theorem derivesIf_name {t : Token} (ht : t.Is .name) :
    DerivesIf Fits (.rule .expression) [t] [referenceTree t] := by
  have primary : DerivesIf Fits (.rule .primary) [t] [referenceTree t] := by
    rw [referenceTree, ← leaf_of_is ht]
    exact .of_mem (.tail _ (.tail _ (.tail _ (.tail _ (.head _))))) (.terminal ht) rfl
  have suffixed : DerivesIf Fits (.rule .suffixed) [t] _ := .of_mem (.head _) primary rfl
  have unary : DerivesIf Fits (.rule .unary) [t] _ := .of_mem (.head _) suffixed rfl
  have product := DerivesIf.operand (l := .product) unary
  have sum := product.operand (l := .sum)
  have equality := (sum.operand (l := .relation)).operand (l := .equality)
  have or := (equality.operand (l := .and)).operand (l := .or)
  have conditional : DerivesIf Fits (.rule .conditional) [t] _ := .of_mem (.head _) or rfl
  exact .of_mem (.tail _ (.head _)) conditional rfl

/-- Braces that could be a record too are a block. -/
theorem decides_block_of_ambiguous (hw : Genuine w) (h : IsAmbiguous w) :
    ∃ y, Decides (.rule .block) w [y] := by
  have between {o c : Token} {v : List Token} {ys : List Node} (ho : o.Is .lbrace)
      (hv : Decides Expansion.statements v ys) (hc : c.Is .rbrace) :
      ∃ y, Decides (.rule .block) (o :: (v ++ [c])) [y] :=
    ⟨_, .of_mem (.head _) (.seq (.mark ho) (.seq hv (.mark hc))) rfl⟩
  rcases h with hkinds | hkinds
  · obtain ⟨o, v, rfl, ho, c, u, rfl, hc, rfl⟩ : ∃ o v, w = o :: v ∧ o.kind = .lbrace ∧
        ∃ c u, v = c :: u ∧ c.kind = .rbrace ∧ u = [] := by
      simpa [List.map_eq_cons_iff] using hkinds
    obtain ⟨hgo, hgc⟩ : o.IsGenuine ∧ c.IsGenuine := by simpa using hw
    exact between (v := []) ⟨ho, hgo⟩ (.seq .manyNone .optionalNone) ⟨hc, hgc⟩
  · obtain ⟨o, v, rfl, ho, n, u, rfl, hn, c, r, rfl, hc, rfl⟩ : ∃ o v, w = o :: v ∧
        o.kind = .lbrace ∧ ∃ n u, v = n :: u ∧ n.kind = .name ∧ ∃ c r, u = c :: r ∧
          c.kind = .rbrace ∧ r = [] := by
      simpa [List.map_eq_cons_iff] using hkinds
    obtain ⟨hgo, hgn, hgc⟩ : o.IsGenuine ∧ n.IsGenuine ∧ c.IsGenuine := by simpa using hw
    have statement : Decides (.rule .simpleStatement) [n] _ :=
      .of_mem (.tail _ (.tail _ (.tail _ (.head _)))) (derivesIf_name ⟨hn, hgn⟩) rfl
    exact between (v := [n]) ⟨ho, hgo⟩ (.seq .manyNone (.optionalSome statement)) ⟨hc, hgc⟩

theorem genuine_of_derives_expression (h : Derives (.rule .expression) w xs) : Genuine w := by
  obtain ⟨x, hx, -⟩ := holds_of_derives h
  exact genuine_of_produces hx

/-- What can be derived has a derivation that decides. -/
theorem exists_decides (h : Derives e w xs) : ∃ ys, Decides e w ys := by
  induction h with
  | empty => exact ⟨_, .empty⟩
  | mark ht => exact ⟨_, .mark ht⟩
  | terminal ht => exact ⟨_, .terminal ht⟩
  | rule mem _ ih => exact ⟨_, .rule mem ih.choose_spec⟩
  | seq _ _ ihFirst ihSecond => exact ⟨_, .seq ihFirst.choose_spec ihSecond.choose_spec⟩
  | eitherFirst _ ih => exact ⟨_, .eitherFirst ih.choose_spec⟩
  | @eitherSecond a b w xs h ih =>
      obtain ⟨ys, hys⟩ := ih
      by_cases hboth : (a = .rule .block ∧ b = .rule .expression) ∧ IsAmbiguous w
      · obtain ⟨⟨rfl, rfl⟩, hambiguous⟩ := hboth
        obtain ⟨y, hy⟩ := decides_block_of_ambiguous (genuine_of_derives_expression h) hambiguous
        exact ⟨[y], .eitherFirst hy⟩
      · exact ⟨ys, .eitherSecond hys fun ha hb hambiguous => hboth ⟨⟨ha, hb⟩, hambiguous⟩⟩
  | optionalNone => exact ⟨_, .optionalNone⟩
  | optionalSome _ ih => exact ⟨_, .optionalSome ih.choose_spec⟩
  | manyNone => exact ⟨_, .manyNone⟩
  | manyMore _ _ ihFirst ihOthers => exact ⟨_, .manyMore ihFirst.choose_spec ihOthers.choose_spec⟩

/-! ## Arrows in a derivation -/

theorem isAmong_build (h : x.IsAmong (Node.normalizeAll (r.build label? w xs))) :
    x.IsAmong (Node.normalizeAll xs) ∨
      x.IsIn (Node.respell (label?.getD r.label) (startOf w) (Node.normalizeAll xs)) := by
  unfold Rule.build at h
  split at h
  · exact .inr (by simpa using h)
  · exact .inl h
  · exact .inl h
  · exact .inr (by simpa using h)

/-- Respelling changes nothing in an arrow but its parameters, which are made no arrow. -/
theorem respell_arrow (p : Option Position) (a b : Node) :
    ∃ a', Node.respell "arrow" p [a, b] = tree "arrow" p [a', b] ∧
      ∀ pos cs, (tree "arrow" pos cs).IsIn a' → (tree "arrow" pos cs).IsIn a := by
  unfold Node.respell
  split
  · simp_all
  · rename_i paramPos name body hlabel hchildren
    obtain ⟨rfl, rfl⟩ : a = tree "single_param" paramPos [name] ∧ b = body := by
      simpa using hchildren
    exact ⟨_, rfl, fun pos cs h => by simpa [Node.isIn_tree] using h⟩
  · simp_all
  · simp_all
  · exact ⟨a, rfl, fun _ _ h => h⟩

/-- Respelling what is no arrow makes no arrow. -/
theorem arrow_isIn_respell {label : String} {p pos : Option Position} {ns cs : List Node}
    (hlabel : label ≠ "arrow") (h : (tree "arrow" pos cs).IsIn (Node.respell label p ns)) :
    (tree "arrow" pos cs).IsAmong ns := by
  unfold Node.respell at h
  split at h
  · simpa [Node.isIn_tree] using h
  · exact absurd rfl hlabel
  · simpa [Node.isIn_tree] using h
  · simpa [Node.isIn_tree] using h
  · simpa [Node.isIn_tree, hlabel.symm] using h

/-- The labels that a rule gives to its trees. -/
def Rule.labels (r : Rule) : List String :=
  r.alternatives.map fun alternative => alternative.2.getD r.label

theorem mem_labels (mem : (e, label?) ∈ r.alternatives) : label?.getD r.label ∈ r.labels :=
  List.mem_map_of_mem mem

/-- Only one rule makes arrows. -/
theorem eq_arrow_of_label (h : "arrow" ∈ r.labels) : r = .arrow := by
  cases r with
  | arrow => rfl
  | level l => cases l <;> exact absurd h (by decide)
  | _ => exact absurd h (by decide)

/-- The parts of an arrow: one tree in front of the mark, and a body behind it. -/
theorem DerivesIf.arrow_parts (mem : (e, label?) ∈ Rule.arrow.alternatives)
    (h : DerivesIf Fits e w xs) :
    ∃ (u v : List Token) (a : Token) (x y : Node), w = u ++ a :: v ∧ a.Is .arrow ∧ xs = [x, y] ∧
      (Reads .block v y ∨ Reads .expression v y ∧ Fits v) := by
  have one {r : Rule} (hr : r.IsPlain) {w : List Token} {xs : List Node}
      (h : DerivesIf Fits (.rule r) w xs) : ∃ x, xs = [x] ∧ Reads r w x := by
    obtain ⟨x, -, rfl⟩ := (hr _ _).1 (holds_of_derives h.derives)
    exact ⟨x, rfl, h.derives⟩
  simp only [Rule.alternatives, List.mem_cons, List.not_mem_nil, or_false, Prod.mk.injEq] at mem
  obtain ⟨rfl, -⟩ := mem
  cases h with
  | @seq _ _ _ _ ps _ first others =>
      obtain ⟨x, rfl⟩ : ∃ x, ps = [x] := by
        rcases holds_of_derives first.derives with ⟨t, -, -, rfl⟩ | ⟨x, -, rfl⟩
        · exact ⟨_, rfl⟩
        · exact ⟨x, rfl⟩
      cases others with
      | seq mark body =>
          cases mark with
          | mark ha =>
              cases body with
              | eitherFirst h =>
                  obtain ⟨y, rfl, hy⟩ := one (isPlain_of_ne (by decide)) h
                  exact ⟨_, _, _, x, y, rfl, ha, rfl, .inl hy⟩
              | eitherSecond h hfits =>
                  obtain ⟨y, rfl, hy⟩ := one (isPlain_of_ne (by decide)) h
                  exact ⟨_, _, _, x, y, rfl, ha, rfl, .inr ⟨hy, hfits rfl rfl⟩⟩

/-- An arrow in a derivation has a body of its own behind a mark. -/
theorem DerivesIf.arrow (h : DerivesIf Fits e w xs) {pos : Option Position} {cs : List Node}
    (hx : (tree "arrow" pos cs).IsAmong (Node.normalizeAll xs)) :
    ∃ (a : Token) (v : List Token) (params y : Node), a :: v <:+: w ∧ a.Is .arrow ∧
      cs = [params, y.normalize] ∧ (Reads .block v y ∨ Reads .expression v y ∧ Fits v) := by
  induction h with
  | empty | mark | optionalNone | manyNone => simp at hx
  | terminal => simp [Node.leaf] at hx
  | eitherFirst _ ih | optionalSome _ ih => exact ih hx
  | eitherSecond _ _ ih => exact ih hx
  | @seq a b u v xs ys _ _ ihFirst ihSecond | @manyMore a u v xs ys _ _ ihFirst ihSecond =>
      rw [Node.normalizeAll_append, Node.isAmong_append] at hx
      rcases hx with hx | hx
      · obtain ⟨a, v', params, y, hinfix, hbody⟩ := ihFirst hx
        exact ⟨a, v', params, y, hinfix.trans (List.prefix_append u v).isInfix, hbody⟩
      · obtain ⟨a, v', params, y, hinfix, hbody⟩ := ihSecond hx
        exact ⟨a, v', params, y, hinfix.trans (List.suffix_append u v).isInfix, hbody⟩
  | @rule r e label? w xs mem body ih =>
      rcases isAmong_build hx with hx | hx
      · exact ih hx
      by_cases hlabel : label?.getD r.label = "arrow"
      · obtain rfl := eq_arrow_of_label (hlabel ▸ mem_labels mem)
        obtain ⟨u, v, a, y, z, rfl, ha, rfl, hbody⟩ := body.arrow_parts mem
        rw [hlabel, Node.normalizeAll_cons, Node.normalizeAll_cons, Node.normalizeAll_nil] at hx
        obtain ⟨params, hrespell, hparams⟩ :=
          respell_arrow (startOf (u ++ a :: v)) y.normalize z.normalize
        rw [hrespell, Node.isIn_tree] at hx
        rcases hx with hx | hx
        · cases hx
          exact ⟨a, v, params, z, (List.suffix_append u _).isInfix, ha, rfl, hbody⟩
        · refine ih ?_
          simp only [Node.normalizeAll_cons, Node.normalizeAll_nil, Node.isAmong_cons] at hx ⊢
          exact hx.imp_left (hparams _ _)
      · exact ih (arrow_isIn_respell hlabel hx)

end VariantScript.Syntax.Grammar
