import Mathlib.Data.List.Basic
import OntoQuery.Proofs.Steps
import OntoQuery.Sparql.Term

/-!
# Terms can be told apart

A term in SPARQL text ends where it ends by itself: a variable and an abbreviation with the last
character that can belong to a name, an IRI in angle brackets with the closing one, a literal with
the first quote that is not escaped or with the datatype after it. So a term followed by something
that cannot continue it (`Sparql.Stops`) can be read in one way only (`Sparql.Written.inj`),
whatever characters the entity contains, and it never leaves its line (`Sparql.Written.oneLine`).

`Sparql.Written` says how an entity can be written, character by character, and is all that the
proofs know of `Sparql.term`.
-/

namespace OntoQuery

/-- The entity without the schema that it is tagged with. -/
def Entity.untagged : Entity → Entity
  | .iri ref => .iri ⟨ref.iri, none⟩
  | e => e

def Statement.untagged (s : Statement) : Statement :=
  s.map Entity.untagged

namespace Text

/-- Where characters of a kind end is decided by what follows. -/
theorem append_inj_of_kind {kind : Char → Bool} {a a' r r' : List Char}
    (ha : ∀ c ∈ a, kind c = true) (ha' : ∀ c ∈ a', kind c = true)
    (hr : ∀ c, r.head? = some c → kind c = false) (hr' : ∀ c, r'.head? = some c → kind c = false)
    (h : a ++ r = a' ++ r') : a = a' ∧ r = r' := by
  have taken : ∀ {b s : List Char}, (∀ c ∈ b, kind c = true) →
      (∀ c, s.head? = some c → kind c = false) → (b ++ s).takeWhile kind = b := by
    intro b s hb hs
    rw [List.takeWhile_append_of_pos hb]
    cases s with
    | nil => simp
    | cons c s => simp [hs c rfl]
  have heq : a = a' := by rw [← taken ha hr, h, taken ha' hr']
  subst heq
  exact ⟨rfl, List.append_cancel_left h⟩

theorem isAlphanumeric_of_ascii {c : Char} (h : c.isAlphanum = true) : isAlphanumeric c = true := by
  have below : ∀ last : Char, c.val ≤ last.val → last.val.toNat < 0x80 → c.toNat < 0x80 :=
    fun last hle hlast => Nat.lt_of_le_of_lt (UInt32.le_iff_toNat_le.1 hle) hlast
  have hkind : c.isAlpha = true ∨ c.isDigit = true := Bool.or_eq_true_iff.1 h
  have hsmall : c.toNat < 0x80 := by
    rcases hkind with hletter | hdigit
    · have hcase : c.isUpper = true ∨ c.isLower = true := Bool.or_eq_true_iff.1 hletter
      rcases hcase with hupper | hlower
      · exact below 'Z' (of_decide_eq_true hupper).2 (by decide)
      · exact below 'z' (of_decide_eq_true (Bool.and_eq_true_iff.1 hlower).2) (by decide)
    · exact below '9' (of_decide_eq_true (Bool.and_eq_true_iff.1 hdigit).2) (by decide)
  rw [isAlphanumeric, isAlphabetic, isNumeric, if_pos hsmall, if_pos hsmall]
  exact h

end Text

namespace Literal

/-- The character that stands for itself or for another one after a backslash. -/
def unescapeChar : Char → Char
  | 'n' => '\n'
  | 'r' => '\r'
  | 't' => '\t'
  | c => c

/-- Reads an escaped form up to the quote that ends it. -/
def readEscaped : List Char → Option (List Char × List Char)
  | [] => none
  | '"' :: rest => some ([], rest)
  | '\\' :: c :: rest => (readEscaped rest).map fun (value, rest) => (unescapeChar c :: value, rest)
  | c :: rest => (readEscaped rest).map fun (value, rest) => (c :: value, rest)

/-- An escaped form is read back, and its end is found. -/
theorem readEscaped_escape (value rest : List Char) :
    readEscaped (value.flatMap escapeChar ++ '"' :: rest) = some (value, rest) := by
  induction value with
  | nil => rfl
  | cons c value ih =>
    rw [List.flatMap_cons, List.append_assoc]
    -- Five characters are escaped; any other stands for itself and is none that the reader minds.
    fun_cases escapeChar c
    · simp [readEscaped, ih, unescapeChar]
    · simp [readEscaped, ih, unescapeChar]
    · simp [readEscaped, ih, unescapeChar]
    · simp [readEscaped, ih, unescapeChar]
    · simp [readEscaped, ih, unescapeChar]
    · rename_i hquote hbackslash _ _ _
      rw [List.singleton_append, readEscaped.eq_4 _ _ hquote (fun _ _ h _ => hbackslash h), ih]
      rfl

theorem escaped_oneLine (value : List Char) : '\n' ∉ value.flatMap escapeChar := by
  intro h
  obtain ⟨c, _, hc⟩ := List.mem_flatMap.1 h
  revert hc
  fun_cases escapeChar c
  · decide
  · decide
  · decide
  · decide
  · decide
  · rename_i hbreak _ _
    simpa using fun h => hbreak h.symm

end Literal

namespace Sparql

/-- The characters that can continue a term. -/
def continues (c : Char) : Bool :=
  Text.isAlphanumeric c || c == '_' || c == '-' || c == '^'

/-- What follows does not continue a term. -/
def Stops (rest : List Char) : Prop :=
  ∀ c, rest.head? = some c → continues c = false

theorem stops_cons {c : Char} (h : continues c = false) (rest : List Char) : Stops (c :: rest) := by
  intro d hd
  cases hd
  exact h

/-- The characters of names. -/
def isNameChar (c : Char) : Bool :=
  Text.isAlphanumeric c || c == '_'

/-- The characters of local names after an abbreviation. -/
def isLocalChar (c : Char) : Bool :=
  c.isAlphanum || c == '_' || c == '-'

theorem Stops.name {rest : List Char} (h : Stops rest) (c : Char) (hc : rest.head? = some c) :
    isNameChar c = false := by
  have := h c hc
  simp only [continues, isNameChar, Bool.or_eq_false_iff] at this ⊢
  exact this.1.1

theorem Stops.local_ {rest : List Char} (h : Stops rest) (c : Char) (hc : rest.head? = some c) :
    isLocalChar c = false := by
  have hstop := h c hc
  simp only [continues, Bool.or_eq_false_iff] at hstop
  have hascii : c.isAlphanum = false := by
    by_contra hascii
    have hletter := Text.isAlphanumeric_of_ascii (c := c) (by simpa using hascii)
    exact Bool.false_ne_true (hstop.1.1.1.symm.trans hletter)
  simp [isLocalChar, hascii, hstop.1.1.2, hstop.1.2]

/-! ## How IRIs are written -/

/-- The ways to write an IRI: in angle brackets, or by one of the abbreviations. -/
inductive WrittenIri (iri : Iri) : List Char → Prop where
  | full : (∀ c ∈ iri.toList, isIriDelimiter c = false) →
    WrittenIri iri ('<' :: iri.toList ++ ['>'])
  | short {short vocabulary : String} {name : List Char} : (short, vocabulary) ∈ abbreviations →
    iri.toList = vocabulary.toList ++ name → (∀ c ∈ name, isLocalChar c = true) →
      WrittenIri iri (short.toList ++ ':' :: name)

theorem isLocalChar_of_plain {name : List Char} (h : isPlainLocal name = true) :
    ∀ c ∈ name, isLocalChar c = true := by
  cases name with
  | nil => cases h
  | cons c name =>
    simp only [isPlainLocal, Bool.and_eq_true, List.all_eq_true] at h
    intro d hd
    rcases List.mem_cons.1 hd with rfl | hd
    · simp only [isLocalChar, Bool.or_eq_true] at h ⊢
      exact .inl h.1
    · exact h.2 d hd

theorem writtenIri_of_ok {e : Entity} {iri : Iri} {text : String} (h : iriTerm e iri = .ok text) :
    WrittenIri iri text.toList := by
  unfold iriTerm at h
  split at h
  · rename_i hiri
    cases h
    cases ha : abbreviate? iri with
    | none =>
      have hplain : ∀ c ∈ iri.toList, isIriDelimiter c = false := by
        simpa [isIri] using (Bool.and_eq_true_iff.1 hiri).2
      simpa using WrittenIri.full hplain
    | some text =>
      obtain ⟨⟨short, vocabulary⟩, hmem, htext⟩ := List.exists_of_findSome?_eq_some ha
      dsimp only at htext
      split at htext
      · rename_i name hname
        split at htext
        · rename_i hlocal
          cases htext
          simpa using WrittenIri.short hmem (Text.dropStart_eq_some.1 hname)
            (isLocalChar_of_plain hlocal)
        · cases htext
      · cases htext
  · cases h

/-- An abbreviation has no colon in it, and does not start like another term. -/
theorem abbreviation_plain : ∀ p ∈ abbreviations, ':' ∉ p.1.toList ∧ '\n' ∉ p.1.toList ∧
    p.1.toList.head? ∈ ['r', 'o', 'x', 'k'].map some := by
  decide

theorem abbreviation_head {short vocabulary : String} (h : (short, vocabulary) ∈ abbreviations) :
    ∃ c rest, short.toList = c :: rest ∧ c ∈ ['r', 'o', 'x', 'k'] := by
  obtain ⟨c, hin, hc⟩ := List.mem_map.1 (abbreviation_plain _ h).2.2
  obtain ⟨rest, hrest⟩ := List.head?_eq_some_iff.1 hc.symm
  exact ⟨c, rest, hrest, hin⟩

theorem abbreviation_inj : ∀ p ∈ abbreviations, ∀ p' ∈ abbreviations, p.1 = p'.1 → p = p' := by
  decide

/-- The first character of an IRI as it is written. -/
theorem WrittenIri.head {iri : Iri} {text : List Char} (h : WrittenIri iri text) :
    ∃ c rest, text = c :: rest ∧ c ∈ ['<', 'r', 'o', 'x', 'k'] := by
  cases h with
  | full _ => exact ⟨'<', _, rfl, by decide⟩
  | @short short _ _ hmem _ _ =>
    obtain ⟨c, rest, hrest, hin⟩ := abbreviation_head hmem
    exact ⟨c, rest ++ ':' :: _, by rw [hrest, List.cons_append], List.mem_cons_of_mem _ hin⟩

theorem not_mem_of_delimiter {iri : Iri} (h : ∀ c ∈ iri.toList, isIriDelimiter c = false) {c : Char}
    (hc : isIriDelimiter c = true) : c ∉ iri.toList := by
  intro hmem
  rw [h c hmem] at hc
  cases hc

theorem WrittenIri.oneLine {iri : Iri} {text : List Char} (h : WrittenIri iri text) :
    '\n' ∉ text := by
  cases h with
  | full hplain => simpa using not_mem_of_delimiter hplain (c := '\n') (by decide)
  | short hmem _ hlocal =>
    have hname : '\n' ∉ _ := fun h => Bool.false_ne_true (hlocal _ h)
    simpa using ⟨(abbreviation_plain _ hmem).2.1, hname⟩

/-- **An IRI is read in one way**, up to where it stops. -/
theorem WrittenIri.inj {iri iri' : Iri} {text text' rest rest' : List Char}
    (h : WrittenIri iri text) (h' : WrittenIri iri' text') (hrest : Stops rest)
    (hrest' : Stops rest') (heq : text ++ rest = text' ++ rest') : iri = iri' ∧ rest = rest' := by
  have mixed : ∀ {short : String} {vocabulary : String} {name other tail : List Char},
      (short, vocabulary) ∈ abbreviations →
      '<' :: other ≠ (short.toList ++ ':' :: name) ++ tail := by
    intro short vocabulary name other tail hmem heq
    obtain ⟨c, start, hstart, hin⟩ := abbreviation_head hmem
    rw [hstart] at heq
    cases heq
    revert hin
    decide
  cases h with
  | full hplain =>
    cases h' with
    | full hplain' =>
      simp only [List.cons_append, List.append_assoc, List.cons.injEq, true_and,
        List.nil_append] at heq
      obtain ⟨hiri, hrest⟩ := Text.append_mark_inj (not_mem_of_delimiter hplain (by decide))
        (not_mem_of_delimiter hplain' (by decide)) heq
      exact ⟨String.toList_injective hiri, hrest⟩
    | short hmem _ _ => exact absurd heq (mixed hmem)
  | short hmem hiri hlocal =>
    cases h' with
    | full hplain' => exact absurd heq.symm (mixed hmem)
    | short hmem' hiri' hlocal' =>
      rw [List.append_assoc, List.append_assoc, List.cons_append, List.cons_append] at heq
      obtain ⟨hshort, htail⟩ := Text.append_mark_inj (abbreviation_plain _ hmem).1
        (abbreviation_plain _ hmem').1 heq
      cases abbreviation_inj _ hmem _ hmem' (String.toList_injective hshort)
      obtain ⟨rfl, hrest⟩ :=
        Text.append_inj_of_kind hlocal hlocal' hrest.local_ hrest'.local_ htail
      exact ⟨String.toList_injective (hiri.trans hiri'.symm), hrest⟩

/-! ## How entities are written -/

/-- The ways to write an entity. -/
inductive Written : Entity → List Char → Prop where
  | var {v : Variable} : (∀ c ∈ v.name.toList, isNameChar c = true) →
    Written (.var v) ('?' :: v.name.toList)
  | iri {ref : IriRef} {text : List Char} : WrittenIri ref.iri text → Written (.iri ref) text
  | plain {l : Literal} : l.datatype = Xsd.string →
    Written (.lit l) ('"' :: l.value.toList.flatMap Literal.escapeChar ++ ['"'])
  | typed {l : Literal} {text : List Char} : l.datatype ≠ Xsd.string → WrittenIri l.datatype text →
    Written (.lit l) ('"' :: l.value.toList.flatMap Literal.escapeChar ++ '"' :: '^' :: '^' :: text)

theorem written_variable {v : Variable} {text : String} (h : variableTerm v = .ok text) :
    Written (.var v) text.toList := by
  unfold variableTerm at h
  split at h
  · rename_i hname
    cases h
    have hchars : ∀ c ∈ v.name.toList, isNameChar c = true :=
      List.all_eq_true.1 (Bool.and_eq_true_iff.1 hname).2
    simpa [Variable.display] using Written.var hchars
  · cases h

theorem written_of_ok {e : Entity} {text : String} (h : term e = .ok text) :
    Written e text.toList := by
  cases e with
  | var v => exact written_variable h
  | iri ref => exact .iri (writtenIri_of_ok h)
  | lit l =>
    change literalTerm l = .ok text at h
    unfold literalTerm at h
    split at h
    · rename_i hstring
      cases h
      simpa [Literal.quoted, Literal.escape] using Written.plain hstring
    · rename_i hstring
      obtain ⟨datatype, hdatatype, h⟩ := bind_eq_ok.1 h
      cases pure_eq_ok.1 h
      simpa [Literal.quoted, Literal.escape] using
        Written.typed hstring (writtenIri_of_ok hdatatype)

/-- The first character of a term is none of those that patterns start with. -/
theorem Written.head {e : Entity} {text : List Char} (h : Written e text) :
    ∃ c rest, text = c :: rest ∧ c ∈ ['?', '"', '<', 'r', 'o', 'x', 'k'] := by
  cases h with
  | var _ => exact ⟨'?', _, rfl, by decide⟩
  | iri hiri =>
    obtain ⟨c, rest, htext, hc⟩ := hiri.head
    exact ⟨c, rest, htext, List.mem_cons_of_mem _ (List.mem_cons_of_mem _ hc)⟩
  | plain _ => exact ⟨'"', _, rfl, by decide⟩
  | typed _ _ => exact ⟨'"', _, rfl, by decide⟩

theorem Written.oneLine {e : Entity} {text : List Char} (h : Written e text) : '\n' ∉ text := by
  cases h with
  | var hname =>
    have hbreak : '\n' ∉ _ := fun h => Bool.false_ne_true (hname _ h)
    simpa using hbreak
  | iri hiri => exact hiri.oneLine
  | @plain l _ =>
    have hvalue := Literal.escaped_oneLine l.value.toList
    simp_all
  | @typed l _ _ hiri =>
    have hvalue := Literal.escaped_oneLine l.value.toList
    have hdatatype := hiri.oneLine
    simp_all

/-- Two quoted forms, each followed by something, are the same form. -/
theorem quoted_inj {value value' : String} {rest rest' : List Char}
    (h : value.toList.flatMap Literal.escapeChar ++ '"' :: rest =
      value'.toList.flatMap Literal.escapeChar ++ '"' :: rest') : value = value' ∧
        rest = rest' := by
  have hread := congrArg Literal.readEscaped h
  rw [Literal.readEscaped_escape, Literal.readEscaped_escape, Option.some.injEq, Prod.mk.injEq]
    at hread
  exact ⟨String.toList_injective hread.1, hread.2⟩

theorem WrittenIri.ne_mark {iri : Iri} {text other tail : List Char} (h : WrittenIri iri text)
    {mark : Char} (hmark : mark ∉ ['<', 'r', 'o', 'x', 'k']) : text ++ tail ≠ mark :: other := by
  obtain ⟨c, rest, rfl, hc⟩ := h.head
  rintro ⟨⟩
  exact hmark hc

/-! A term is told by how it starts: with a question mark, an IRI or a quotation mark. -/

namespace Written
variable {e : Entity} {text rest other : List Char} (h : Written e text)
include h

theorem of_question (heq : text ++ rest = '?' :: other) :
    ∃ v : Variable, e = .var v ∧ (∀ c ∈ v.name.toList, isNameChar c = true) ∧
      other = v.name.toList ++ rest := by
  cases h with
  | var hname => exact ⟨_, rfl, hname, (List.cons.inj heq).2.symm⟩
  | iri hiri => exact absurd heq (hiri.ne_mark (by decide))
  | plain _ => cases heq
  | typed _ _ => cases heq

theorem of_iri {iri : Iri} {start : List Char} (hiri : WrittenIri iri start)
    (heq : text ++ rest = start ++ other) : ∃ ref, e = .iri ref ∧ WrittenIri ref.iri text := by
  cases h with
  | var _ => exact absurd heq.symm (hiri.ne_mark (by decide))
  | iri hiri' => exact ⟨_, rfl, hiri'⟩
  | plain _ => exact absurd heq.symm (hiri.ne_mark (by decide))
  | typed _ _ => exact absurd heq.symm (hiri.ne_mark (by decide))

theorem of_quote (heq : text ++ rest = '"' :: other) :
    ∃ l tail, e = .lit l ∧ other = l.value.toList.flatMap Literal.escapeChar ++ '"' :: tail ∧
      (l.datatype = Xsd.string ∧ tail = rest ∨
        ∃ type, WrittenIri l.datatype type ∧ tail = '^' :: '^' :: (type ++ rest)) := by
  cases h with
  | var _ => cases heq
  | iri hiri => exact absurd heq (hiri.ne_mark (by decide))
  | plain hstring =>
    simp only [List.cons_append, List.append_assoc, List.cons.injEq, true_and, List.nil_append]
      at heq
    exact ⟨_, _, rfl, heq.symm, .inl ⟨hstring, rfl⟩⟩
  | typed _ hiri =>
    simp only [List.cons_append, List.append_assoc, List.cons.injEq, true_and] at heq
    exact ⟨_, _, rfl, heq.symm, .inr ⟨_, hiri, rfl⟩⟩

end Written

theorem Stops.ne_caret {tail other : List Char} (h : Stops tail) : tail ≠ '^' :: other := by
  rintro rfl
  exact Bool.false_ne_true (h _ rfl).symm

/-- **A term is read in one way**, up to where it stops. -/
theorem Written.inj {e e' : Entity} {text text' rest rest' : List Char} (h : Written e text)
    (h' : Written e' text') (hrest : Stops rest) (hrest' : Stops rest')
    (heq : text ++ rest = text' ++ rest') : e.untagged = e'.untagged ∧ rest = rest' := by
  cases h with
  | @var v hname =>
    obtain ⟨v', rfl, hname', hother⟩ := h'.of_question heq.symm
    obtain ⟨hvar, hrest⟩ := Text.append_inj_of_kind hname hname' hrest.name hrest'.name hother
    cases v
    cases v'
    exact ⟨congrArg (fun name => Entity.var ⟨name⟩) (String.toList_injective hvar), hrest⟩
  | iri hiri =>
    obtain ⟨_, rfl, hiri'⟩ := h'.of_iri hiri heq.symm
    obtain ⟨hsame, hrest⟩ := hiri.inj hiri' hrest hrest' heq
    exact ⟨congrArg (fun iri => Entity.iri ⟨iri, none⟩) hsame, hrest⟩
  | @plain l hstring =>
    simp only [List.cons_append, List.append_assoc, List.nil_append] at heq
    obtain ⟨l', tail, rfl, hother, hend⟩ := h'.of_quote heq.symm
    obtain ⟨hvalue, rfl⟩ := quoted_inj hother
    rcases hend with ⟨hstring', hend⟩ | ⟨_, _, hend⟩
    · cases l
      cases l'
      exact ⟨by simp_all [Entity.untagged], hend⟩
    · exact absurd hend hrest.ne_caret
  | @typed l _ _ hiri =>
    simp only [List.cons_append, List.append_assoc] at heq
    obtain ⟨l', tail, rfl, hother, hend⟩ := h'.of_quote heq.symm
    obtain ⟨hvalue, rfl⟩ := quoted_inj hother
    rcases hend with ⟨_, hend⟩ | ⟨_, hiri', hend⟩
    · exact absurd hend.symm hrest'.ne_caret
    · simp only [List.cons.injEq, true_and] at hend
      obtain ⟨hdatatype, hrest⟩ := hiri.inj hiri' hrest hrest' hend
      cases l
      cases l'
      exact ⟨by simp_all [Entity.untagged], hrest⟩

end Sparql

end OntoQuery
