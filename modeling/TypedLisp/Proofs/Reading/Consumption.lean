import TypedLisp.Proofs.Reading.Lexing

/-!
# What reading takes in

Reading puts the tokens of a text into trees: atoms, closing brackets that end nothing, and
bracketed groups of trees. Brackets that the text leaves open keep the trees that follow them. Forms
and errors are functions of the trees (`TokenTree.form?`, `TokenTree.errors`, `Taken.errors`), of
which no token is left out and none occurs twice.
-/

namespace TypedLisp

/-! ## Token trees -/

/-- A tree of tokens that reading is done with. -/
inductive TokenTree where
  | atom (token : Token) (value : Atom) (span : Span) (stands : token.atom? = some value)
  /-- A closing bracket that ends nothing. -/
  | stray (closer : Closer) (span : Span)
  | group (bracket : Bracket) (start : Span) (parts : List TokenTree) (stop : Span)

namespace TokenTree

@[induction_eliminator]
theorem ind {motive : TokenTree → Prop} (atom : ∀ t a s h, motive (.atom t a s h))
    (stray : ∀ c s, motive (.stray c s))
    (group : ∀ b s parts s', (∀ q ∈ parts, motive q) → motive (.group b s parts s'))
    (q : TokenTree) :
    motive q :=
  @TokenTree.rec motive (fun qs => ∀ q ∈ qs, motive q) atom stray group (fun _ h => nomatch h)
    (fun _ _ hq hqs => List.forall_mem_cons.2 ⟨hq, hqs⟩) q

mutual

/-- The tokens of a tree in order. -/
def tokens : TokenTree → List (Token × Span)
  | .atom t _ s _ => [(t, s)]
  | .stray c s => [(.closing c, s)]
  | .group b start parts stop =>
    (.opening b, start) :: (tokensAll parts ++ [(.closing b.closer, stop)])

/-- The tokens of some trees in order. -/
def tokensAll : List TokenTree → List (Token × Span)
  | [] => []
  | q :: qs => q.tokens ++ tokensAll qs

end

section Meaning

variable (text : List Char)

mutual

/-- The form that a tree is, if it is one: a closing bracket that ends nothing is none, nor is a map
with a key that has no value. -/
def form? : TokenTree → Option Form
  | .atom _ a s _ => some (.atom a (s.range text))
  | .stray _ _ => none
  | .group b start parts stop =>
    if b = .map ∧ (forms parts).length % 2 ≠ 0 then none
    else some (.seq b (forms parts) ((start.merge stop).range text))

/-- The forms among some trees. -/
def forms : List TokenTree → List Form
  | [] => []
  | q :: qs => q.form?.toList ++ forms qs

end

mutual

/-- The errors in a tree in the order in which they are found. -/
def errors : TokenTree → List ReadError
  | .atom _ _ _ _ => []
  | .stray c s => [⟨.unexpected c, s.range text⟩]
  | .group b start parts stop =>
    errorsAll parts ++
      if b = .map ∧ (forms text parts).length % 2 ≠ 0 then
        [⟨.oddMap, (start.merge stop).range text⟩]
      else []

/-- The errors in some trees in the order in which they are found. -/
def errorsAll : List TokenTree → List ReadError
  | [] => []
  | q :: qs => q.errors ++ errorsAll qs

end

end Meaning

theorem tokensAll_eq_flatMap (qs : List TokenTree) : tokensAll qs = qs.flatMap tokens := by
  induction qs with
  | nil => rfl
  | cons q qs ih => simp [tokensAll, ih]

theorem forms_eq_filterMap (text : List Char) (qs : List TokenTree) :
    forms text qs = qs.filterMap (form? text) := by
  induction qs with
  | nil => rfl
  | cons q qs ih => cases h : q.form? text <;> simp [forms, ih, h]

theorem errorsAll_eq_flatMap (text : List Char) (qs : List TokenTree) :
    errorsAll text qs = qs.flatMap (errors text) := by
  induction qs with
  | nil => rfl
  | cons q qs ih => simp [errorsAll, ih]

end TokenTree

/-! ## A division of the tokens -/

/-- A bracket that is open, with the trees after it. -/
structure OpenTree where
  bracket : Bracket
  span : Span
  parts : List TokenTree

/-- The tokens of an open bracket in order. -/
def OpenTree.tokens (o : OpenTree) : List (Token × Span) :=
  (.opening o.bracket, o.span) :: TokenTree.tokensAll o.parts

/-- A division of tokens: trees outside all open brackets, then the open brackets, innermost first.
-/
structure Taken where
  opened : List OpenTree := []
  trees : List TokenTree := []

namespace Taken

variable (text : List Char)

/-- The tokens that are divided in order. -/
def tokens (k : Taken) : List (Token × Span) :=
  TokenTree.tokensAll k.trees ++ k.opened.reverse.flatMap OpenTree.tokens

/-- The errors inside trees in the order in which they are found. -/
def innerErrors (k : Taken) : List ReadError :=
  TokenTree.errorsAll text k.trees ++
    k.opened.reverse.flatMap fun o => TokenTree.errorsAll text o.parts

/-- All errors in the order in which they are found: at the end the brackets that are still open. -/
def errors (k : Taken) : List ReadError :=
  k.innerErrors text ++ k.opened.map fun o => ⟨.unclosed o.bracket, o.span.range text⟩

/-- Reading in progress after these tokens. -/
def reading (k : Taken) : Reading where
  openForms := k.opened.map fun o => ⟨o.bracket, o.span, (TokenTree.forms text o.parts).reverse⟩
  forms := (TokenTree.forms text k.trees).reverse
  errors := (k.innerErrors text).reverse

/-- Puts a tree after the others. -/
def add (k : Taken) (q : TokenTree) : Taken :=
  match k.opened with
  | [] => { k with trees := k.trees ++ [q] }
  | o :: os => { k with opened := { o with parts := o.parts ++ [q] } :: os }

variable {text}

theorem tokens_add (k : Taken) (q : TokenTree) : (k.add q).tokens = k.tokens ++ q.tokens := by
  unfold add
  split <;> simp_all [tokens, OpenTree.tokens, TokenTree.tokensAll_eq_flatMap]

theorem innerErrors_add (text : List Char) (k : Taken) (q : TokenTree) :
    (k.add q).innerErrors text = k.innerErrors text ++ q.errors text := by
  unfold add
  split <;> simp_all [innerErrors, TokenTree.errorsAll_eq_flatMap]

theorem reading_add_of_some (k : Taken) {q : TokenTree} {f : Form} (hf : q.form? text = some f) :
    (k.add q).reading text =
      { k.reading text with errors := (k.innerErrors text ++ q.errors text).reverse }.add f := by
  have herr := innerErrors_add text k q
  unfold add at herr ⊢
  split <;> simp_all [reading, Reading.add, TokenTree.forms_eq_filterMap]

theorem reading_add_of_none (k : Taken) {q : TokenTree} (hf : q.form? text = none) :
    (k.add q).reading text =
      { k.reading text with errors := (k.innerErrors text ++ q.errors text).reverse } := by
  have herr := innerErrors_add text k q
  unfold add at herr ⊢
  split <;> simp_all [reading, TokenTree.forms_eq_filterMap]

theorem reading_add_atom (k : Taken) {t : Token} {a : Atom} (h : t.atom? = some a) (s : Span) :
    (k.add (.atom t a s h)).reading text = (k.reading text).step text (t, s) := by
  rw [reading_add_of_some k rfl, Reading.step_of_atom? h, TokenTree.errors, List.append_nil]
  rfl

theorem reading_add_stray (k : Taken) (c : Closer) (s : Span) :
    (k.add (.stray c s)).reading text = (k.reading text).report text (.unexpected c) s := by
  rw [reading_add_of_none k rfl]
  simp [reading, Reading.report, TokenTree.errors]

theorem reading_add_group (os : List OpenTree) (trees : List TokenTree) (o : OpenTree) (s : Span) :
    ((mk os trees).add (.group o.bracket o.span o.parts s)).reading text =
      Reading.close text
        { reading text ⟨o :: os, trees⟩ with openForms := (reading text ⟨os, trees⟩).openForms }
        ⟨o.bracket, o.span, (TokenTree.forms text o.parts).reverse⟩ s := by
  have hinner : innerErrors text ⟨o :: os, trees⟩ =
      innerErrors text ⟨os, trees⟩ ++ TokenTree.errorsAll text o.parts := by
    simp [innerErrors]
  by_cases hodd : o.bracket = .map ∧ (TokenTree.forms text o.parts).length % 2 ≠ 0
  · rw [reading_add_of_none _ (by rw [TokenTree.form?, if_pos hodd])]
    simp [Reading.close, hodd, Reading.report, reading, hinner, TokenTree.errors]
  · rw [reading_add_of_some _ (by rw [TokenTree.form?, if_neg hodd])]
    simp only [Reading.close, List.length_reverse, if_neg hodd, reading, hinner, TokenTree.errors,
      List.append_nil, List.reverse_reverse]

/-- **One token more is taken in as reading takes it in**, and is the only one that is. -/
theorem exists_step (text : List Char) (k : Taken) (t : Token × Span) :
    ∃ k' : Taken, k'.tokens = k.tokens ++ [t] ∧ k'.reading text = (k.reading text).step text t := by
  obtain ⟨t, s⟩ := t
  cases t with
  | opening b =>
    exact ⟨⟨⟨b, s, []⟩ :: k.opened, k.trees⟩,
      by simp [tokens, OpenTree.tokens, TokenTree.tokensAll],
      by simp [reading, innerErrors, Reading.step, TokenTree.forms, TokenTree.errorsAll]⟩
  | closing c =>
    obtain ⟨opened, trees⟩ := k
    cases opened with
    | nil =>
      exact ⟨_, tokens_add _ (.stray c s), by rw [reading_add_stray]; rfl⟩
    | cons o os =>
      by_cases hc : o.bracket.closer = c
      · refine ⟨(Taken.mk os trees).add (.group o.bracket o.span o.parts s), ?_, ?_⟩
        · rw [tokens_add]
          simp [tokens, OpenTree.tokens, TokenTree.tokens, hc]
        · rw [reading_add_group]
          simp only [Reading.step, reading, List.map_cons, hc, if_true]
      · refine ⟨_, tokens_add _ (.stray c s), ?_⟩
        rw [reading_add_stray]
        simp only [Reading.step, reading, List.map_cons, hc, if_false]
  | ascribe | bool | int | str | symbol =>
    exact ⟨_, tokens_add k (.atom _ _ s rfl), reading_add_atom k rfl s⟩

theorem exists_foldl_step (text : List Char) (k : Taken) (ts : List (Token × Span)) :
    ∃ k' : Taken, k'.tokens = k.tokens ++ ts ∧
      k'.reading text = ts.foldl (Reading.step text) (k.reading text) := by
  induction ts generalizing k with
  | nil => exact ⟨k, by simp, rfl⟩
  | cons t ts ih =>
    obtain ⟨k₁, htokens₁, hreading₁⟩ := exists_step text k t
    obtain ⟨k₂, htokens₂, hreading₂⟩ := ih k₁
    exact ⟨k₂, by simp [htokens₂, htokens₁], by rw [hreading₂, hreading₁, List.foldl_cons]⟩

end Taken

theorem Reading.errors_finish (text : List Char) (r : Reading) :
    (r.finish text).errors.reverse =
      r.errors.reverse ++ r.openForms.map fun o => ⟨.unclosed o.bracket, o.span.range text⟩ := by
  have key : ∀ (os : List OpenForm) (r : Reading),
      (os.foldl (fun r o => r.report text (.unclosed o.bracket) o.span) r).errors.reverse =
        r.errors.reverse ++ os.map fun o => ⟨.unclosed o.bracket, o.span.range text⟩ := by
    intro os
    induction os with
    | nil => simp
    | cons o os ih =>
      intro r
      rw [List.foldl_cons, ih]
      simp [Reading.report]
  exact key _ r

/-- **Every text is read by dividing its tokens into trees**, which between them have every token
exactly once and in order; the forms and the errors are those of the trees. -/
theorem exists_taken (source : String) :
    ∃ k : Taken, k.tokens = tokens source ∧
      read source = (TokenTree.forms source.toList k.trees,
        (invalidText source).map (fun (t, s) => ⟨.character t, s.range source.toList⟩) ++
          k.errors source.toList) := by
  obtain ⟨k, htokens, hreading⟩ :=
    Taken.exists_foldl_step source.toList {} (tokens source)
  refine ⟨k, by simpa [Taken.tokens, TokenTree.tokensAll] using htokens, ?_⟩
  have hstart : (Taken.mk [] []).reading source.toList = {} := rfl
  rw [hstart] at hreading
  simp only [read, ← hreading, Reading.forms_finish, Reading.errors_finish]
  simp [Taken.reading, Taken.errors]

/-! ## The forms of trees -/

namespace TokenTree

variable {text : List Char}

/-- The forms of trees of lexed tokens are grammatical, and their atoms are among the tokens. -/
theorem grammatical_of_form? {q : TokenTree} {f : Form} (hf : q.form? text = some f)
    (hlex : ∀ t ∈ q.tokens, t.1.Lexical) :
    f.Grammatical ∧ ∀ a ∈ f.atoms, a.token.Lexical := by
  induction q generalizing f with
  | atom t a s h =>
    cases hf
    have ht : t.Lexical := hlex (t, s) (by simp [tokens])
    obtain ⟨htoken, hdivided⟩ := Token.token_of_atom? h ht.ne_ascribe
    exact ⟨Form.grammatical_atom_iff.2 hdivided, by simpa [Form.atoms, htoken] using ht⟩
  | stray c s => cases hf
  | group b start parts stop ih =>
    rw [form?] at hf
    split at hf
    · cases hf
    · rename_i hodd
      cases hf
      have hparts : ∀ g ∈ forms text parts, g.Grammatical ∧ ∀ a ∈ g.atoms, a.token.Lexical := by
        intro g hg
        rw [forms_eq_filterMap] at hg
        obtain ⟨q, hq, hform⟩ := List.mem_filterMap.1 hg
        refine ih q hq hform fun t ht => hlex t ?_
        rw [tokens, tokensAll_eq_flatMap]
        exact List.mem_cons_of_mem _ (List.mem_append_left _ (List.mem_flatMap.2 ⟨q, hq, ht⟩))
      refine ⟨Form.grammatical_seq_iff.2 ⟨fun hb => ?_, fun g hg => (hparts g hg).1⟩, ?_⟩
      · by_contra hne
        exact hodd ⟨hb, hne⟩
      · intro a ha
        rw [Form.atoms, Form.atomsAll_eq_flatMap] at ha
        obtain ⟨g, hg, hag⟩ := List.mem_flatMap.1 ha
        exact (hparts g hg).2 a hag

theorem tokensAll_forms_of_forall {qs : List TokenTree}
    (h : ∀ q ∈ qs, ∃ f, q.form? text = some f ∧ f.tokens = q.tokens.map Prod.fst) :
    Form.tokensAll (forms text qs) = (tokensAll qs).map Prod.fst := by
  induction qs with
  | nil => rfl
  | cons q qs ih =>
    obtain ⟨⟨f, hf, htokens⟩, hqs⟩ := List.forall_mem_cons.1 h
    simp [forms, hf, Form.tokensAll, tokensAll, htokens, ih hqs]

theorem tokens_form?_of_errors {q : TokenTree} (he : q.errors text = [])
    (hlex : ∀ t ∈ q.tokens, t.1.Lexical) :
    ∃ f, q.form? text = some f ∧ f.tokens = q.tokens.map Prod.fst := by
  induction q with
  | atom t a s h =>
    refine ⟨_, rfl, ?_⟩
    have hne : t ≠ .symbol "::" := Token.Lexical.ne_ascribe (hlex (t, s) (by simp [tokens]))
    simp [Form.tokens, tokens, (Token.token_of_atom? h hne).1]
  | stray c s => cases he
  | group b start parts stop ih =>
    rw [errors, List.append_eq_nil_iff, errorsAll_eq_flatMap] at he
    obtain ⟨hparts, hodd⟩ := he
    have heven : ¬(b = .map ∧ (forms text parts).length % 2 ≠ 0) := fun h => by simp [h] at hodd
    refine ⟨_, by rw [form?, if_neg heven], ?_⟩
    have hforms := tokensAll_forms_of_forall fun q hq =>
      ih q hq (List.flatMap_eq_nil_iff.1 hparts q hq) fun t ht => hlex t (by
        rw [tokens, tokensAll_eq_flatMap]
        exact List.mem_cons_of_mem _ (List.mem_append_left _ (List.mem_flatMap.2 ⟨q, hq, ht⟩)))
    simp [Form.tokens, tokens, hforms]

end TokenTree

theorem lexical_of_mem_tokens (source : String) {t : Token × Span} (h : t ∈ tokens source) :
    t.1.Lexical := by
  obtain ⟨t, s⟩ := t
  cases t with
  | symbol name => exact Lexer.isSymbol_of_mem_tokens h
  | _ => trivial

/-- **Forms that are read are grammatical**, and their atoms have the texts of tokens. -/
theorem grammatical_of_mem_read (source : String) {f : Form} (h : f ∈ (read source).1) :
    f.Grammatical ∧ ∀ a ∈ f.atoms, a.token.Lexical := by
  obtain ⟨k, htokens, hread⟩ := exists_taken source
  rw [hread, TokenTree.forms_eq_filterMap] at h
  obtain ⟨q, hq, hform⟩ := List.mem_filterMap.1 h
  refine TokenTree.grammatical_of_form? hform fun t ht => lexical_of_mem_tokens source ?_
  rw [← htokens, Taken.tokens, TokenTree.tokensAll_eq_flatMap]
  exact List.mem_append_left _ (List.mem_flatMap.2 ⟨q, hq, ht⟩)

theorem readAll_eq_ok_iff {source : String} {forms : List Form} :
    readAll source = .ok forms ↔ read source = (forms, []) := by
  unfold readAll
  split <;> simp_all

/-- Whether the tokens of a text are those of grammatical forms. -/
structure Spells (source : String) (forms : List Form) : Prop where
  grammatical : ∀ f ∈ forms, f.Grammatical
  tokens_eq : Form.tokensAll forms = (tokens source).map Prod.fst

/-- What is read without an error is what the text spells, and there was nothing else in it. -/
theorem spells_of_readAll {source : String} {forms : List Form} (h : readAll source = .ok forms) :
    invalidText source = [] ∧ Spells source forms := by
  rw [readAll_eq_ok_iff] at h
  obtain ⟨k, htokens, hread⟩ := exists_taken source
  rw [hread, Prod.mk.injEq, List.append_eq_nil_iff, List.map_eq_nil_iff] at h
  obtain ⟨rfl, hinvalid, herrors⟩ := h
  simp only [Taken.errors, Taken.innerErrors, List.append_eq_nil_iff,
    List.map_eq_nil_iff] at herrors
  obtain ⟨⟨htrees, -⟩, hopened⟩ := herrors
  have hall : TokenTree.tokensAll k.trees = tokens source := by
    simpa [Taken.tokens, hopened] using htokens
  refine ⟨hinvalid, fun f hf => (grammatical_of_mem_read source ?_).1, ?_⟩
  · rwa [hread]
  · rw [TokenTree.tokensAll_forms_of_forall fun q hq => ?_, hall]
    refine TokenTree.tokens_form?_of_errors ?_ fun t ht => lexical_of_mem_tokens source ?_
    · rw [TokenTree.errorsAll_eq_flatMap] at htrees
      exact List.flatMap_eq_nil_iff.1 htrees q hq
    · rw [← hall, TokenTree.tokensAll_eq_flatMap]
      exact List.mem_flatMap.2 ⟨q, hq, ht⟩

/-- **Reading succeeds exactly if the text has tokens only and spells forms**; what it gives then
are the forms that the text spells, which are the only ones. And every text, however malformed, is
read by dividing its tokens into trees that have every token exactly once and in order. -/
theorem readAll_ok_iff_spells (source : String) :
    ((∃ forms, readAll source = .ok forms) ↔
      invalidText source = [] ∧ ∃ forms, Spells source forms) ∧
    (∀ forms, readAll source = .ok forms → Spells source forms ∧
      ∀ others, Spells source others → others.map Form.bare = forms.map Form.bare) ∧
    ∃ k : Taken, k.tokens = tokens source ∧
      read source = (TokenTree.forms source.toList k.trees,
        (invalidText source).map (fun (t, s) => ⟨.character t, s.range source.toList⟩) ++
          k.errors source.toList) := by
  refine ⟨⟨?_, ?_⟩, fun forms h => ⟨(spells_of_readAll h).2, fun others hothers => ?_⟩,
    exists_taken source⟩
  · rintro ⟨forms, h⟩
    exact ⟨(spells_of_readAll h).1, forms, (spells_of_readAll h).2⟩
  · rintro ⟨hinvalid, forms, hforms⟩
    obtain ⟨read, hread, -⟩ :=
      readAll_of_tokens hinvalid hforms.grammatical hforms.tokens_eq.symm
    exact ⟨read, hread⟩
  · -- Any spelling is read back, and reading has one result.
    obtain ⟨forms', hread, hbare⟩ :=
      readAll_of_tokens (spells_of_readAll h).1 hothers.grammatical hothers.tokens_eq.symm
    cases h.symm.trans hread
    exact hbare.symm

end TypedLisp
