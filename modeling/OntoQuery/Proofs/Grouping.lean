import OntoQuery.Proofs.Operands
import OntoQuery.Proofs.Terms

/-!
# What the text of a filter shows

Connectives, negations and calls are written so that their ends can be seen: by parentheses, or by
what stands behind a term. Comparisons are not. Where one comparison is the operand of another, the
text shows a chain of operands with comparisons between them, and not how the chain is grouped.

`Expression.shown` is what is left to see: the expression with every chain grouped to the right, and
without schemas. `Sparql.Operand` and `Sparql.Chain` say how such an expression can be written,
character by character, and from there a text is read in one way (`Sparql.ReadOnce`). So two
expressions have the same text exactly if they show the same (`same_text_iff_shown`), and only
chains can be confused.
-/

namespace OntoQuery

namespace Expression

/-- The expression without the schemas that its IRIs are tagged with. -/
def untagged (e : Expression) : Expression :=
  e.map Entity.untagged

def isComparison : Expression → Bool
  | compare _ _ _ => true
  | _ => false

/-- The comparison of the two, with the comparisons on its left grouped to the right. -/
def chained : Expression → Comparison → Expression → Expression
  | compare left op right, op', e => compare left op (chained right op' e)
  | entity x, op, e => compare (entity x) op e
  | and left right, op, e => compare (and left right) op e
  | or left right, op, e => compare (or left right) op e
  | not inner, op, e => compare (not inner) op e
  | call function args, op, e => compare (call function args) op e

mutual

/-- What the text shows of the expression: no schemas, and every chain of comparisons grouped to the
right. -/
def shown : Expression → Expression
  | entity e => entity e.untagged
  | compare left op right => chained left.shown op right.shown
  | and left right => and left.shown right.shown
  | or left right => or left.shown right.shown
  | not inner => not inner.shown
  | call function args => call function (allShown args)

def allShown : List Expression → List Expression
  | [] => []
  | e :: es => e.shown :: allShown es

end

theorem allShown_eq_map (es : List Expression) : allShown es = es.map shown := by
  induction es with
  | nil => rfl
  | cons e es ih => rw [allShown, ih, List.map_cons]

theorem chained_of_not_comparison {left : Expression} (h : left.isComparison = false)
    (op : Comparison) (right : Expression) : chained left op right = compare left op right := by
  cases left with
  | compare _ _ _ => cases h
  | _ => rfl

theorem isComparison_chained (left : Expression) (op : Comparison) (right : Expression) :
    (chained left op right).isComparison = true := by
  cases left <;> rfl

theorem isComparison_shown (e : Expression) : e.shown.isComparison = e.isComparison := by
  cases e with
  | compare left op right => exact isComparison_chained _ op _
  | _ => rfl

/-! ## Expressions without chains -/

/-- Whether the expression is a comparison of comparisons. -/
def isChain : Expression → Bool
  | compare left _ right => left.isComparison || right.isComparison
  | _ => false

/-- Whether a comparison is an operand of another one, at any depth. -/
def hasChain (e : Expression) : Bool :=
  e.visits.any fun
    | .expression part => part.isChain
    | _ => false

theorem hasChain_eq (e : Expression) : e.hasChain = (e.isChain || e.operands.any hasChain) := by
  unfold hasChain
  rw [visits_eq, List.any_cons, List.any_append, List.any_flatMap, List.any_map]
  have hentity : (e.entity?.toList.any ((fun
      | .expression part => part.isChain
      | _ => false) ∘ Visit.entity)) = false := by simp
  rw [hentity, Bool.false_or]

theorem hasChain_compare (left : Expression) (op : Comparison) (right : Expression) :
    (compare left op right).hasChain =
      (left.isComparison || right.isComparison || left.hasChain || right.hasChain) := by
  rw [hasChain_eq]
  simp [isChain, operands, Bool.or_assoc]

theorem hasChain_chained (left : Expression) (op : Comparison) (right : Expression) :
    (chained left op right).hasChain =
      (left.isComparison || right.isComparison || left.hasChain || right.hasChain) := by
  cases hleft : left.isComparison with
  | false => rw [chained_of_not_comparison hleft, hasChain_compare, hleft]
  | true =>
    cases left with
    | compare l o r => simp [chained, hasChain_compare, isComparison_chained]
    | _ => cases hleft

theorem isChain_of_not_comparison {e : Expression} (h : e.isComparison = false) :
    e.isChain = false := by
  cases e with
  | compare _ _ _ => cases h
  | _ => rfl

theorem operands_shown {e : Expression} (h : e.isComparison = false) :
    e.shown.operands = e.operands.map shown := by
  cases e with
  | compare _ _ _ => cases h
  | call function args => simp [shown, operands, allShown_eq_map]
  | _ => simp [shown, operands]

/-- Grouping makes no chain and removes none. -/
theorem hasChain_shown (e : Expression) : e.shown.hasChain = e.hasChain := by
  induction e using by_operands with
  | step e ih =>
    cases hcomparison : e.isComparison with
    | false =>
      have hoperands : e.operands.any (hasChain ∘ shown) = e.operands.any hasChain := by
        rw [Bool.eq_iff_iff, List.any_eq_true, List.any_eq_true]
        refine exists_congr fun x => and_congr_right fun hx => ?_
        rw [Function.comp, ih x hx]
      have hshown := (isComparison_shown e).trans hcomparison
      rw [hasChain_eq, hasChain_eq e, isChain_of_not_comparison hshown,
        isChain_of_not_comparison hcomparison, operands_shown hcomparison, List.any_map, hoperands]
    | true =>
      cases e with
      | compare left op right =>
        have hleft := ih left (by simp [operands])
        have hright := ih right (by simp [operands])
        rw [shown, hasChain_chained, hasChain_compare, isComparison_shown,
          isComparison_shown, hleft, hright]
      | _ => cases hcomparison

/-- Without chains, only the schemas are not shown. -/
theorem shown_of_not_hasChain {e : Expression} (h : e.hasChain = false) : e.shown = e.untagged := by
  induction e using by_operands with
  | step e ih =>
    rw [hasChain_eq, Bool.or_eq_false_iff, List.any_eq_false] at h
    have hoperands : ∀ x ∈ e.operands, x.shown = x.map Entity.untagged :=
      fun x hx => ih x hx (by simpa using h.2 x hx)
    unfold untagged
    cases e with
    | entity x => rfl
    | compare left op right =>
      simp only [operands, List.forall_mem_cons] at hoperands
      have hleft : left.shown.isComparison = false :=
        (isComparison_shown left).trans (Bool.or_eq_false_iff.1 h.1).1
      rw [shown, chained_of_not_comparison hleft, hoperands.1, hoperands.2.1, map]
    | and left right =>
      simp only [operands, List.forall_mem_cons] at hoperands
      rw [shown, hoperands.1, hoperands.2.1, map]
    | or left right =>
      simp only [operands, List.forall_mem_cons] at hoperands
      rw [shown, hoperands.1, hoperands.2.1, map]
    | not inner => rw [shown, hoperands inner List.mem_cons_self, map]
    | call function args =>
      rw [shown, allShown_eq_map, map, maps_eq_map]
      exact congrArg (call function) (List.map_congr_left hoperands)

end Expression

namespace Sparql

/-! ## What is not shown does not change the text -/

theorem expression_not (inner : Expression) :
    expression (.not inner) = (expression inner).map fun text =>
      if inner.isComparison then "!(" ++ text ++ ")" else "!" ++ text := by
  cases inner with
  | compare left op right =>
    simp only [expression]
    cases expression left <;> cases expression right <;>
      simp [Except.map, bind, Except.bind, pure, Except.pure, Expression.isComparison,
        String.append_assoc]
  | _ =>
    simp only [expression]
    rfl

theorem expression_chained (left : Expression) (op : Comparison) (right : Expression) :
    expression (.chained left op right) = expression (.compare left op right) := by
  induction left using Expression.by_operands with
  | step left ih =>
    cases hleft : left.isComparison with
    | false => rw [Expression.chained_of_not_comparison hleft]
    | true =>
      cases left with
      | compare l o r =>
        have hr := ih r (by simp [Expression.operands])
        rw [Expression.chained, expression, hr]
        simp only [expression, bind_assoc, pure_bind, String.append_assoc]
      | _ => cases hleft

theorem iriTerm_ok {e e' : Entity} {iri : Iri} {text : String} :
    iriTerm e iri = .ok text ↔ iriTerm e' iri = .ok text := by
  unfold iriTerm
  split <;> simp

theorem term_untagged (e : Entity) (text : String) :
    term e.untagged = .ok text ↔ term e = .ok text := by
  cases e with
  | iri ref => exact iriTerm_ok
  | _ => rfl

theorem expressions_map {f : Expression → Expression} {es : List Expression}
    (h : ∀ e ∈ es, ∀ text, expression (f e) = .ok text ↔ expression e = .ok text)
    (texts : List String) : expressions (es.map f) = .ok texts ↔ expressions es = .ok texts := by
  induction es generalizing texts with
  | nil => rfl
  | cons e es ih =>
    have he := h e List.mem_cons_self
    have hes := ih fun x hx => h x (List.mem_cons_of_mem _ hx)
    simp only [List.map_cons, expressions, bind_eq_ok, he, hes]

/-- What is shown has the same text. -/
theorem expression_shown (e : Expression) (text : String) :
    expression e.shown = .ok text ↔ expression e = .ok text := by
  induction e using Expression.by_operands generalizing text with
  | step e ih =>
    cases e with
    | entity x => exact term_untagged x text
    | compare left op right =>
      have hleft := ih left (by simp [Expression.operands])
      have hright := ih right (by simp [Expression.operands])
      simp only [Expression.shown, expression_chained, expression, bind_eq_ok, hleft, hright]
    | and left right =>
      have hleft := ih left (by simp [Expression.operands])
      have hright := ih right (by simp [Expression.operands])
      simp only [Expression.shown, expression, bind_eq_ok, hleft, hright]
    | or left right =>
      have hleft := ih left (by simp [Expression.operands])
      have hright := ih right (by simp [Expression.operands])
      simp only [Expression.shown, expression, bind_eq_ok, hleft, hright]
    | not inner =>
      have hinner := ih inner (by simp [Expression.operands])
      simp only [Expression.shown, expression_not, map_eq_ok, hinner, Expression.isComparison_shown]
    | call function args =>
      have hargs : ∀ texts, expressions (args.map Expression.shown) = .ok texts ↔
          expressions args = .ok texts := expressions_map ih
      simp only [Expression.shown, Expression.allShown_eq_map, expression, bind_eq_ok, hargs]

/-! ## How expressions are written -/

/-- The expression joins the two others by the connective that is written with this character,
twice. -/
inductive Connects : Expression → Expression → Char → Expression → Prop where
  | and (left right : Expression) : Connects (.and left right) left '&' right
  | or (left right : Expression) : Connects (.or left right) left '|' right

mutual

/-- The ways to write an expression that is no comparison. -/
inductive Operand : Expression → List Char → Prop where
  | entity {e : Entity} {text : List Char} : Written e text → Operand (.entity e.untagged) text
  | connective {e left right : Expression} {mark : Char} {l r : List Char} :
    Connects e left mark right → Chain left l → Chain right r →
      Operand e ('(' :: (l ++ ' ' :: mark :: mark :: ' ' :: (r ++ [')'])))
  | negation {inner : Expression} {text : List Char} : Operand inner text →
    Operand (.not inner) ('!' :: text)
  | negatedComparison {inner : Expression} {text : List Char} : inner.isComparison = true →
    Chain inner text → Operand (.not inner) ('!' :: '(' :: (text ++ [')']))
  | call {function : Function} {args : List Expression} {text : List Char} : Arguments args text →
    Operand (.call function args) (function.name.toList ++ '(' :: (text ++ [')']))

/-- The ways to write an expression whose chains are grouped to the right. -/
inductive Chain : Expression → List Char → Prop where
  | single {e : Expression} {text : List Char} : Operand e text → Chain e text
  | comparison {left right : Expression} {op : Comparison} {l r : List Char} : Operand left l →
    Chain right r → Chain (.compare left op right) (l ++ ' ' :: (op.symbol.toList ++ ' ' :: r))

/-- The ways to write arguments. -/
inductive Arguments : List Expression → List Char → Prop where
  | none : Arguments [] []
  | last {e : Expression} {text : List Char} : Chain e text → Arguments [e] text
  | cons {e next : Expression} {es : List Expression} {text rest : List Char} : Chain e text →
    Arguments (next :: es) rest → Arguments (e :: next :: es) (text ++ ',' :: ' ' :: rest)

end

theorem Operand.not_comparison {e : Expression} {text : List Char} (h : Operand e text) :
    e.isComparison = false := by
  cases h with
  | connective hconnects _ _ => cases hconnects <;> rfl
  | _ => rfl

theorem Chain.operand {e : Expression} {text : List Char} (h : Chain e text)
    (he : e.isComparison = false) : Operand e text := by
  cases h with
  | single h => exact h
  | comparison _ _ => cases he

theorem Chain.chained {left right : Expression} {op : Comparison} {l r : List Char}
    (hl : Chain left l) (hr : Chain right r) :
    Chain (.chained left op right) (l ++ ' ' :: (op.symbol.toList ++ ' ' :: r)) := by
  induction left using Expression.by_operands generalizing l with
  | step left ih =>
    cases hl with
    | single hl =>
      rw [Expression.chained_of_not_comparison hl.not_comparison]
      exact .comparison hl hr
    | @comparison first second op' l₁ l₂ hfirst hsecond =>
      have hrest := ih second (by simp [Expression.operands]) hsecond
      rw [Expression.chained, List.append_assoc, List.cons_append, List.append_assoc,
        List.cons_append]
      exact .comparison hfirst hrest

theorem arguments_of_ok {es : List Expression}
    (ih : ∀ e ∈ es, ∀ text, expression e = .ok text → Chain e.shown text.toList)
    {texts : List String} (h : expressions es = .ok texts) :
    Arguments (es.map Expression.shown) (", ".intercalate texts).toList := by
  rw [String.toList_intercalate]
  induction es generalizing texts with
  | nil =>
    rw [expressions] at h
    cases h
    exact .none
  | cons e es ihs =>
    rw [expressions] at h
    obtain ⟨text, htext, h⟩ := bind_eq_ok.1 h
    obtain ⟨rest, hrest, h⟩ := bind_eq_ok.1 h
    cases pure_eq_ok.1 h
    have he := ih e List.mem_cons_self text htext
    have hes := ihs (fun x hx => ih x (List.mem_cons_of_mem _ hx)) hrest
    cases es with
    | nil =>
      rw [expressions] at hrest
      cases hrest
      simpa using Arguments.last he
    | cons next es =>
      rw [expressions] at hrest
      obtain ⟨_, _, hrest⟩ := bind_eq_ok.1 hrest
      obtain ⟨_, _, hrest⟩ := bind_eq_ok.1 hrest
      cases pure_eq_ok.1 hrest
      simpa using Arguments.cons he hes

/-- The text of an expression is one of the ways to write what it shows. -/
theorem chain_of_ok {e : Expression} {text : String} (h : expression e = .ok text) :
    Chain e.shown text.toList := by
  induction e using Expression.by_operands generalizing text with
  | step e ih =>
    cases e with
    | entity x => exact .single (.entity (written_of_ok h))
    | compare left op right =>
      rw [expression] at h
      obtain ⟨l, hl, h⟩ := bind_eq_ok.1 h
      obtain ⟨r, hr, h⟩ := bind_eq_ok.1 h
      cases pure_eq_ok.1 h
      have hleft := ih left (by simp [Expression.operands]) hl
      have hright := ih right (by simp [Expression.operands]) hr
      simpa [Expression.shown] using hleft.chained hright
    | and left right =>
      rw [expression] at h
      obtain ⟨l, hl, h⟩ := bind_eq_ok.1 h
      obtain ⟨r, hr, h⟩ := bind_eq_ok.1 h
      cases pure_eq_ok.1 h
      have hleft := ih left (by simp [Expression.operands]) hl
      have hright := ih right (by simp [Expression.operands]) hr
      simpa [Expression.shown] using Chain.single (.connective (.and _ _) hleft hright)
    | or left right =>
      rw [expression] at h
      obtain ⟨l, hl, h⟩ := bind_eq_ok.1 h
      obtain ⟨r, hr, h⟩ := bind_eq_ok.1 h
      cases pure_eq_ok.1 h
      have hleft := ih left (by simp [Expression.operands]) hl
      have hright := ih right (by simp [Expression.operands]) hr
      simpa [Expression.shown] using Chain.single (.connective (.or _ _) hleft hright)
    | not inner =>
      rw [expression_not] at h
      obtain ⟨t, ht, h⟩ := map_eq_ok.1 h
      have hinner := ih inner (by simp [Expression.operands]) ht
      have hshown := Expression.isComparison_shown inner
      cases hcomparison : inner.isComparison with
      | true =>
        rw [hcomparison] at h hshown
        subst h
        simpa [Expression.shown] using Chain.single (.negatedComparison hshown hinner)
      | false =>
        rw [hcomparison] at h hshown
        subst h
        simpa [Expression.shown] using Chain.single (.negation (hinner.operand hshown))
    | call function args =>
      rw [expression] at h
      obtain ⟨texts, htexts, h⟩ := bind_eq_ok.1 h
      cases pure_eq_ok.1 h
      have hargs : Arguments (args.map Expression.shown) (", ".intercalate texts).toList :=
        arguments_of_ok (fun x hx text => @ih x hx text) htexts
      have hcall : Operand (.call function _) _ := .call hargs
      rw [Expression.shown, Expression.allShown_eq_map]
      simpa using Chain.single hcall

/-! ## Reading a text -/

/-- What follows closes an expression: nothing, a bracket, a comma or a connective. -/
inductive Closes : List Char → Prop where
  | nil : Closes []
  | bracket (rest : List Char) : Closes (')' :: rest)
  | comma (rest : List Char) : Closes (',' :: rest)
  | connective {mark : Char} (rest : List Char) : mark ∈ ['&', '|'] → Closes (' ' :: mark :: rest)

theorem Closes.stops {rest : List Char} (h : Closes rest) : Stops rest := by
  cases h with
  | nil => exact fun _ h => nomatch h
  | bracket rest => exact stops_cons (by decide) rest
  | comma rest => exact stops_cons (by decide) rest
  | connective rest _ => exact stops_cons (by decide) _

theorem symbol_plain (op : Comparison) :
    ' ' ∉ op.symbol.toList ∧ ∃ c rest, op.symbol.toList = c :: rest ∧ c ∉ ['&', '|'] := by
  cases op <;> exact ⟨by decide, _, _, rfl, by decide⟩

theorem symbol_inj {op op' : Comparison} (h : op.symbol.toList = op'.symbol.toList) : op = op' := by
  revert h
  cases op <;> cases op' <;> decide

/-- A comparison does not close an expression. -/
theorem Closes.not_comparison {op : Comparison} {tail : List Char} :
    ¬ Closes (' ' :: (op.symbol.toList ++ tail)) := by
  obtain ⟨_, c, rest, hsymbol, hc⟩ := symbol_plain op
  rw [hsymbol]
  intro h
  cases h with
  | connective _ hmark => exact hc hmark

theorem Connects.operands {e left right : Expression} {mark : Char}
    (h : Connects e left mark right) : e.operands = [left, right] := by
  cases h <;> rfl

theorem Connects.mark_mem {e left right : Expression} {mark : Char}
    (h : Connects e left mark right) : mark ∈ ['&', '|'] := by
  cases h <;> decide

theorem Connects.inj {e e' left right : Expression} {mark : Char} (h : Connects e left mark right)
    (h' : Connects e' left mark right) : e = e' := by
  cases h <;> cases h' <;> rfl

theorem name_plain (function : Function) : '(' ∉ function.name.toList := by
  cases function <;> decide

theorem name_inj {f f' : Function} (h : f.name.toList = f'.name.toList) : f = f' := by
  revert h
  cases f <;> cases f' <;> decide

theorem name_ne_mark {function : Function} {other tail : List Char} {mark : Char}
    (hmark : mark ∉ ['r', 'l', 's', 'B']) : function.name.toList ++ tail ≠ mark :: other := by
  cases function <;> rintro ⟨⟩ <;> exact hmark (by decide)

theorem Written.ne_mark {e : Entity} {text other tail : List Char} (h : Written e text)
    {mark : Char}
    (hmark : mark ∉ ['?', '"', '<', 'r', 'o', 'x', 'k']) : text ++ tail ≠ mark :: other := by
  obtain ⟨c, rest, rfl, hc⟩ := h.head
  rintro ⟨⟩
  exact hmark hc

/-- The first two characters tell an abbreviation from the name of a function. -/
theorem abbreviation_ne_name : ∀ p ∈ abbreviations, ∀ f ∈ Function.all,
    2 ≤ p.1.toList.length ∧ 2 ≤ f.name.toList.length ∧
      p.1.toList.take 2 ≠ f.name.toList.take 2 := by
  decide

/-- An entity is not written like a call. -/
theorem Written.ne_call {e : Entity} {text other tail : List Char} (h : Written e text)
    {function : Function} : text ++ tail ≠ function.name.toList ++ other := by
  cases h with
  | var _ => exact (name_ne_mark (by decide)).symm
  | iri hiri =>
    cases hiri with
    | full _ => exact (name_ne_mark (by decide)).symm
    | @short short vocabulary name hmem _ _ =>
      obtain ⟨hshort, hname, hne⟩ :=
        abbreviation_ne_name _ hmem function (by cases function <;> decide)
      intro heq
      have htwo := congrArg (List.take 2) heq
      rw [List.append_assoc, List.take_append_of_le_length hshort,
        List.take_append_of_le_length hname] at htwo
      exact hne htwo
  | plain _ => exact (name_ne_mark (by decide)).symm
  | typed _ _ => exact (name_ne_mark (by decide)).symm

/-! An operand is told by how it starts: with an entity, a bracket, an exclamation mark or a
name. -/

namespace Operand
variable {e : Expression} {text rest other : List Char} (h : Operand e text)
include h

theorem of_written {x : Entity} {start : List Char} (hwritten : Written x start)
    (heq : text ++ rest = start ++ other) : ∃ x', e = .entity x'.untagged ∧ Written x' text := by
  cases h with
  | entity hwritten' => exact ⟨_, rfl, hwritten'⟩
  | connective _ _ _ => exact absurd heq.symm (hwritten.ne_mark (by decide))
  | negation _ => exact absurd heq.symm (hwritten.ne_mark (by decide))
  | negatedComparison _ _ => exact absurd heq.symm (hwritten.ne_mark (by decide))
  | call _ =>
    rw [List.append_assoc] at heq
    exact absurd heq.symm hwritten.ne_call

theorem of_bracket (heq : text ++ rest = '(' :: other) :
    ∃ left right mark l r, Connects e left mark right ∧ Chain left l ∧ Chain right r ∧
      other = l ++ ' ' :: mark :: mark :: ' ' :: (r ++ ')' :: rest) := by
  cases h with
  | entity hwritten => exact absurd heq (hwritten.ne_mark (by decide))
  | connective hconnects hl hr =>
    simp only [List.cons_append, List.append_assoc, List.nil_append, List.cons.injEq, true_and]
      at heq
    exact ⟨_, _, _, _, _, hconnects, hl, hr, heq.symm⟩
  | negation _ => cases heq
  | negatedComparison _ _ => cases heq
  | call _ =>
    rw [List.append_assoc] at heq
    exact absurd heq (name_ne_mark (by decide))

theorem of_exclamation (heq : text ++ rest = '!' :: other) :
    ∃ inner t, e = .not inner ∧ (Operand inner t ∧ other = t ++ rest ∨
      Chain inner t ∧ other = '(' :: (t ++ ')' :: rest)) := by
  cases h with
  | entity hwritten => exact absurd heq (hwritten.ne_mark (by decide))
  | connective _ _ _ => cases heq
  | negation hinner => exact ⟨_, _, rfl, .inl ⟨hinner, (List.cons.inj heq).2.symm⟩⟩
  | negatedComparison _ hinner =>
    simp only [List.cons_append, List.append_assoc, List.nil_append, List.cons.injEq, true_and]
      at heq
    exact ⟨_, _, rfl, .inr ⟨hinner, heq.symm⟩⟩
  | call _ =>
    rw [List.append_assoc] at heq
    exact absurd heq (name_ne_mark (by decide))

theorem of_name {function : Function} (heq : text ++ rest = function.name.toList ++ '(' :: other) :
    ∃ args t, e = .call function args ∧ Arguments args t ∧ other = t ++ ')' :: rest := by
  cases h with
  | entity hwritten => exact absurd heq hwritten.ne_call
  | connective _ _ _ => exact absurd heq.symm (name_ne_mark (by decide))
  | negation _ => exact absurd heq.symm (name_ne_mark (by decide))
  | negatedComparison _ _ => exact absurd heq.symm (name_ne_mark (by decide))
  | call hargs =>
    simp only [List.cons_append, List.append_assoc, List.nil_append] at heq
    obtain ⟨hname, hmore⟩ := Text.append_mark_inj (name_plain _) (name_plain _) heq
    rw [name_inj hname]
    exact ⟨_, _, rfl, hargs, hmore.symm⟩

end Operand

theorem Chain.ne_bracket {e : Expression} {text other tail : List Char} (h : Chain e text) :
    text ++ tail ≠ ')' :: other := by
  have start : ∀ {e : Expression} {text tail : List Char}, Operand e text →
      text ++ tail ≠ ')' :: other := by
    intro e text tail h
    cases h with
    | entity hwritten => exact hwritten.ne_mark (by decide)
    | connective _ _ _ => exact fun h => nomatch h
    | negation _ => exact fun h => nomatch h
    | negatedComparison _ _ => exact fun h => nomatch h
    | call _ =>
      rw [List.append_assoc]
      exact name_ne_mark (by decide)
  cases h with
  | single h => exact start h
  | comparison h _ =>
    rw [List.append_assoc]
    exact start h

/-- How an expression in this form is read: in one way, up to where it stops or closes, and not as
another one in brackets. -/
structure ReadOnce (e : Expression) : Prop where
  operand : ∀ {e' : Expression} {text text' rest rest' : List Char}, Operand e text →
    Operand e' text' → Stops rest → Stops rest' → text ++ rest = text' ++ rest' →
      e = e' ∧ rest = rest'
  chain : ∀ {e' : Expression} {text text' rest rest' : List Char}, Chain e text → Chain e' text' →
    Closes rest → Closes rest' → text ++ rest = text' ++ rest' → e = e' ∧ rest = rest'
  bracketed : ∀ {e' : Expression} {text text' rest rest' : List Char}, Operand e text →
    Chain e' text' → text ++ rest ≠ '(' :: (text' ++ ')' :: rest')

theorem readOnce_arguments {es es' : List Expression} (h : ∀ e ∈ es, ReadOnce e)
    {text text' rest rest' : List Char} (hes : Arguments es text) (hes' : Arguments es' text')
    (heq : text ++ ')' :: rest = text' ++ ')' :: rest') : es = es' ∧ rest = rest' := by
  induction es generalizing es' text text' with
  | nil =>
    cases hes
    cases hes' with
    | none => exact ⟨rfl, (List.cons.inj heq).2⟩
    | last he' => exact absurd heq.symm he'.ne_bracket
    | cons he' _ =>
      rw [List.append_assoc] at heq
      exact absurd heq.symm he'.ne_bracket
  | cons e es ih =>
    have he := h e List.mem_cons_self
    cases hes with
    | last hchain =>
      cases hes' with
      | none => exact absurd heq hchain.ne_bracket
      | last hchain' =>
        obtain ⟨rfl, hend⟩ := he.chain hchain hchain' (.bracket _) (.bracket _) heq
        exact ⟨rfl, (List.cons.inj hend).2⟩
      | cons hchain' _ =>
        rw [List.append_assoc] at heq
        obtain ⟨_, hend⟩ := he.chain hchain hchain' (.bracket _) (.comma _) heq
        cases hend
    | cons hchain hmore =>
      rw [List.append_assoc] at heq
      cases hes' with
      | none => exact absurd heq hchain.ne_bracket
      | last hchain' =>
        obtain ⟨_, hend⟩ := he.chain hchain hchain' (.comma _) (.bracket _) heq
        cases hend
      | cons hchain' hmore' =>
        rw [List.append_assoc] at heq
        obtain ⟨rfl, htail⟩ := he.chain hchain hchain' (.comma _) (.comma _) heq
        have hmores : ∀ x ∈ _ :: _, ReadOnce x := fun x hx => h x (List.mem_cons_of_mem _ hx)
        obtain ⟨hsame, hend⟩ := ih hmores hmore hmore' (List.cons.inj (List.cons.inj htail).2).2
        exact ⟨congrArg _ hsame, hend⟩

section
variable {e : Expression} (hoperands : ∀ x ∈ e.operands, ReadOnce x)
include hoperands

theorem readOnce_bracketed {e' : Expression} {text text' rest rest' : List Char}
    (h : Operand e text) (h' : Chain e' text') : text ++ rest ≠ '(' :: (text' ++ ')' :: rest') := by
  intro heq
  obtain ⟨left, right, mark, l, _, hconnects, hl, _, hother⟩ := h.of_bracket heq
  have hleft := hoperands left (by simp [hconnects.operands])
  obtain ⟨_, hend⟩ :=
    hleft.chain hl h' (.connective _ hconnects.mark_mem) (.bracket _) hother.symm
  cases hend

theorem readOnce_operand {e' : Expression} {text text' rest rest' : List Char}
    (h : Operand e text) (h' : Operand e' text') (hrest : Stops rest) (hrest' : Stops rest')
    (heq : text ++ rest = text' ++ rest') : e = e' ∧ rest = rest' := by
  cases h with
  | entity hwritten =>
    obtain ⟨_, rfl, hwritten'⟩ := h'.of_written hwritten heq.symm
    obtain ⟨hsame, hend⟩ := hwritten.inj hwritten' hrest hrest' heq
    exact ⟨congrArg _ hsame, hend⟩
  | connective hconnects hl hr =>
    rw [hconnects.operands, List.forall_mem_cons, List.forall_mem_cons] at hoperands
    simp only [List.cons_append, List.append_assoc, List.nil_append] at heq
    obtain ⟨_, _, _, _, _, hconnects', hl', hr', hother⟩ := h'.of_bracket heq.symm
    obtain ⟨rfl, hmiddle⟩ := hoperands.1.chain hl hl' (.connective _ hconnects.mark_mem)
      (.connective _ hconnects'.mark_mem) hother
    simp only [List.cons.injEq, true_and] at hmiddle
    obtain ⟨rfl, _, hright⟩ := hmiddle
    obtain ⟨rfl, hend⟩ := hoperands.2.1.chain hr hr' (.bracket _) (.bracket _) hright
    exact ⟨hconnects.inj hconnects', (List.cons.inj hend).2⟩
  | negation hinner =>
    have hread := hoperands _ List.mem_cons_self
    obtain ⟨_, _, rfl, ⟨hinner', hother⟩ | ⟨hchain, hother⟩⟩ := h'.of_exclamation heq.symm
    · obtain ⟨rfl, hend⟩ := hread.operand hinner hinner' hrest hrest' hother
      exact ⟨rfl, hend⟩
    · exact absurd hother (hread.bracketed hinner hchain)
  | negatedComparison _ hchain =>
    have hread := hoperands _ List.mem_cons_self
    simp only [List.cons_append, List.append_assoc, List.nil_append] at heq
    obtain ⟨_, _, rfl, ⟨hinner', hother⟩ | ⟨hchain', hother⟩⟩ := h'.of_exclamation heq.symm
    · obtain ⟨_, _, _, _, _, hconnects, hl, _, hinside⟩ := hinner'.of_bracket hother.symm
      obtain ⟨_, hend⟩ :=
        hread.chain hchain hl (.bracket _) (.connective _ hconnects.mark_mem) hinside
      cases hend
    · obtain ⟨rfl, hend⟩ :=
        hread.chain hchain hchain' (.bracket _) (.bracket _) (List.cons.inj hother).2
      exact ⟨rfl, (List.cons.inj hend).2⟩
  | call hargs =>
    simp only [List.cons_append, List.append_assoc, List.nil_append] at heq
    obtain ⟨_, _, rfl, hargs', hother⟩ := h'.of_name heq.symm
    obtain ⟨rfl, hend⟩ := readOnce_arguments hoperands hargs hargs' hother
    exact ⟨rfl, hend⟩

theorem readOnce_chain {e' : Expression} {text text' rest rest' : List Char} (h : Chain e text)
    (h' : Chain e' text') (hrest : Closes rest) (hrest' : Closes rest')
    (heq : text ++ rest = text' ++ rest') : e = e' ∧ rest = rest' := by
  cases h with
  | single h =>
    cases h' with
    | single h' => exact readOnce_operand hoperands h h' hrest.stops hrest'.stops heq
    | comparison hl hr =>
      rw [List.append_assoc, List.cons_append, List.append_assoc] at heq
      obtain ⟨_, rfl⟩ :=
        readOnce_operand hoperands h hl hrest.stops (stops_cons (by decide) _) heq
      exact absurd hrest Closes.not_comparison
  | @comparison left right op l r hl hr =>
    have hleft := hoperands left (by simp [Expression.operands])
    have hright := hoperands right (by simp [Expression.operands])
    rw [List.append_assoc, List.cons_append, List.append_assoc, List.cons_append] at heq
    cases h' with
    | single h' =>
      obtain ⟨_, hsame⟩ := hleft.operand hl h' (stops_cons (by decide) _) hrest'.stops heq
      exact absurd (hsame ▸ hrest') Closes.not_comparison
    | @comparison left' right' op' l' r' hl' hr' =>
      rw [List.append_assoc, List.cons_append, List.append_assoc, List.cons_append] at heq
      obtain ⟨rfl, hsame⟩ :=
        hleft.operand hl hl' (stops_cons (by decide) _) (stops_cons (by decide) _) heq
      obtain ⟨hsymbol, htail⟩ := Text.append_mark_inj (symbol_plain op).1 (symbol_plain op').1
        (List.cons.inj hsame).2
      obtain ⟨rfl, hend⟩ := hright.chain hr hr' hrest hrest' htail
      exact ⟨by rw [symbol_inj hsymbol], hend⟩

end

/-- **Every expression in this form is read in one way.** -/
theorem readOnce (e : Expression) : ReadOnce e := by
  induction e using Expression.by_operands with
  | step e ih => exact ⟨readOnce_operand ih, readOnce_chain ih, readOnce_bracketed ih⟩

theorem shown_eq_of_same_text {a b : Expression} {text : String} (ha : expression a = .ok text)
    (hb : expression b = .ok text) : a.shown = b.shown :=
  ((readOnce a.shown).chain (chain_of_ok ha) (chain_of_ok hb) .nil .nil rfl).1

end Sparql

/-- **The text of a filter tells what it shows, and no more.** Two expressions have the same text
exactly if they are the same up to schemas and up to how chains of comparisons are grouped. So if no
comparison is an operand of a comparison in one of them, then they are the same up to schemas. -/
theorem same_text_iff_shown {a : Expression} {text : String} (ha : Sparql.expression a = .ok text)
    (b : Expression) :
    (Sparql.expression b = .ok text ↔ a.shown = b.shown) ∧
    (a.hasChain = false → Sparql.expression b = .ok text → a.untagged = b.untagged) := by
  refine ⟨⟨Sparql.shown_eq_of_same_text ha, ?_⟩, ?_⟩
  · intro hshown
    rw [← Sparql.expression_shown, ← hshown, Sparql.expression_shown]
    exact ha
  · intro hplain hb
    have hshown := Sparql.shown_eq_of_same_text ha hb
    have hplain' : b.hasChain = false := by
      rw [← Expression.hasChain_shown, ← hshown, Expression.hasChain_shown, hplain]
    rw [← Expression.shown_of_not_hasChain hplain, hshown, Expression.shown_of_not_hasChain hplain']

/-- A filter without chains, whose literal looks like more of it, is told by its text up to the
schema. -/
theorem same_text_iff_shown_nested :
    let filter (schema : Option Schema) : Expression :=
      .and (.not (.compare (.entity (.var ⟨"n"⟩)) .lt (.entity (.lit (.integer 3)))))
        (.or (.compare (.entity (.var ⟨"p"⟩)) .eq
            (.entity (.iri ⟨Rdfs.vocabulary ++ "label", schema⟩)))
          (.call .regex [.entity (.var ⟨"t"⟩), .entity (.lit (.string ") || ("))]))
    let text := "(!(?n < \"3\"^^xsd:integer) && (?p = rdfs:label || regex(?t, \") || (\")))"
    Sparql.expression (filter none) = .ok text ∧ (filter none).hasChain = false ∧
      Sparql.expression (filter (some .simple)) = .ok text ∧
      (filter none).untagged = (filter (some .simple)).untagged := by
  intro filter text
  have htext : Sparql.expression (filter none) = .ok text := eq_ok_of_toOption (by decide +kernel)
  have htagged : Sparql.expression (filter (some .simple)) = .ok text :=
    eq_ok_of_toOption (by decide +kernel)
  exact ⟨htext, rfl, htagged, (same_text_iff_shown htext _).2 rfl htagged⟩

/-- **Comparisons of comparisons are not told apart**, though they are different filters: the text
does not show whether the first two variables are compared or the last two. -/
theorem chains_written_alike :
    let a : Expression := .entity (.var ⟨"a"⟩)
    let b : Expression := .entity (.var ⟨"b"⟩)
    let c : Expression := .entity (.var ⟨"c"⟩)
    let first : Expression := .compare (.compare a .eq b) .eq c
    let last : Expression := .compare a .eq (.compare b .eq c)
    Sparql.expression first = .ok "?a = ?b = ?c" ∧ Sparql.expression last = .ok "?a = ?b = ?c" ∧
      first.untagged ≠ last.untagged := by
  intro a b c first last
  exact ⟨eq_ok_of_toOption (by decide +kernel), eq_ok_of_toOption (by decide +kernel), nofun⟩

end OntoQuery
