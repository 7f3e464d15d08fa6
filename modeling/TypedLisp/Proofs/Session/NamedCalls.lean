import TypedLisp.Proofs.Namespaces.Integrity
import TypedLisp.Proofs.Reading.Lexing

/-!
# Calls by name

A call from outside gives the name of a function as a text. Where the text is a symbol, the function
is that of the var which the symbol stands for in the current namespace. A qualifier that names no
namespace is taken for the name of one when the call is made and refused when the symbol is
analysed, which comes to the same.
-/

namespace TypedLisp

/-! ## Texts that are one symbol -/

namespace Lexer

theorem ofList_more_of_scan {c : Char} {cs : List Char} {name : String}
    (h : (scan c cs).lexeme = .token (.symbol name)) :
    String.ofList (c :: (scan c cs).more) = name := by
  unfold scan at h ⊢
  split at h
  · cases h
  split at h
  · cases h
  split at h
  · dsimp only at h
    exact absurd h (intLexeme_ne_symbol _ _ _)
  split at h
  · rename_i hblank hcomment hdigit hstart
    rw [if_neg hblank, if_neg hcomment, if_neg hdigit, if_pos hstart]
    exact ofList_eq_of_wordLexeme h
  · exact absurd h (lexeme_scanMark_ne_symbol c cs name)

/-- **A text that lexes as one symbol is that symbol.** -/
theorem eq_of_lexemes_eq_symbol {source name : String}
    (h : (lexemes 0 source.toList).map Prod.fst = [.token (.symbol name)]) : source = name := by
  cases hsource : source.toList with
  | nil => simp [hsource, lexemes] at h
  | cons c cs =>
    rw [hsource, lexemes, List.map_cons] at h
    obtain ⟨hlexeme, hrest⟩ := List.cons.inj h
    -- nothing comes after the symbol
    have hnil : (scan c cs).rest = [] := by
      cases hr : (scan c cs).rest with
      | nil => rfl
      | cons d ds => simp [hr, lexemes] at hrest
    have hmore := more_append_rest_scan c cs
    rw [hnil, List.append_nil] at hmore
    rw [← ofList_more_of_scan hlexeme, hmore, ← hsource, String.ofList_toList]

theorem readAll_of_lexemes_eq_symbol {source name : String}
    (h : (lexemes 0 source.toList).map Prod.fst = [.token (.symbol name)]) :
    ∃ r, readAll source = .ok [.atom (.ofSymbol source) r] := by
  obtain rfl := eq_of_lexemes_eq_symbol h
  obtain ⟨⟨l, span⟩, rest, hlexemes, rfl, hrest⟩ := List.map_eq_cons_iff.1 h
  obtain rfl := List.map_eq_nil_iff.1 hrest
  refine ⟨span.range source.toList, ?_⟩
  have htokens : tokens source = [(.symbol source, span)] := by
    rw [tokens, hlexemes]
    rfl
  have hinvalid : invalidText source = [] := by
    rw [invalidText, hlexemes]
    rfl
  rw [readAll, read, htokens, hinvalid]
  rfl

end Lexer

/-! ## What a name stands for -/

/-- Where vars are in namespaces that there are, a qualifier that is no namespace may as well be the
name of one. -/
theorem Env.Consistent.resolveQualifiedVar_eq {e : Env} (he : e.Consistent) (n q sym : String) :
    e.resolveQualifiedVar n q sym = e.var? ⟨(e.resolveQualifier n q).getD q, sym⟩ := by
  unfold Env.resolveQualifiedVar
  cases hq : e.resolveQualifier n q with
  | some target => rfl
  | none =>
    have hns : e.hasNs q ≠ true := fun hns => by
      unfold Env.resolveQualifier at hq
      split at hq
      · cases hq
      · rw [if_pos hns] at hq
        cases hq
    show none = e.var? ⟨q, sym⟩
    cases hv : e.var? ⟨q, sym⟩ with
    | none => rfl
    | some v => exact absurd (he.var_ns _ v hv) hns

/-- At top level an atom is analysed with no local in scope and takes nothing from the supply. -/
theorem run_analyse_atom (env : Env) (ns : String) (a : Atom) (r : Range) (supply : Supply) :
    (analyse env ns (.atom a r)).run supply =
      (atomExpr { env, ns } a r).map fun e => (e, supply) := by
  rw [analyse, exprForm]
  · cases h : atomExpr { env, ns } a r <;> rfl
  · simp

namespace Session

variable {s : Session}

/-- A symbol either stands for one var, both in a call from outside and at top level, or for nothing
in both. -/
theorem resolve_cases (hs : s.env.Consistent) (sym : String) (r : Range) :
    (∃ v, s.resolve sym = .ok v ∧
      atomExpr { env := s.env, ns := s.ns } (.ofSymbol sym) r = .ok (.globalVar v (plainNote r))) ∨
    (∃ g, s.resolve sym = .error (.unknownVar g)) ∧
      ∃ text, atomExpr { env := s.env, ns := s.ns } (.ofSymbol sym) r =
        .error ⟨.unresolved text, r⟩ := by
  unfold resolve
  obtain ⟨q, n, -, -, -, -, hof⟩ | ⟨-, hof⟩ := Atom.ofSymbol_cases sym
  · simp only [hof, ← hs.resolveQualifiedVar_eq, atomExpr]
    cases s.env.resolveQualifiedVar s.ns (String.ofList q) (String.ofList n) with
    | some v => exact .inl ⟨v, rfl, rfl⟩
    | none => exact .inr ⟨⟨_, rfl⟩, _, rfl⟩
  · simp only [hof, atomExpr, Scope.local?, List.find?_nil]
    cases s.env.resolveVar s.ns sym with
    | some v => exact .inl ⟨v, rfl, rfl⟩
    | none => exact .inr ⟨⟨_, rfl⟩, _, rfl⟩

/-- **A call by name and the name itself agree.** Let a text be one symbol. It is then read as one
form, and the call has for its target exactly the var that the form stands for at top level in the
current namespace: there is a target just where the form has such a var, and the call is a call of
its function. The call reports an unknown var just where analysis reports that the form is
unresolved. -/
theorem Reachable.invoke_agrees_with_analysis (hs : s.Reachable) (sym name : String)
    (hsym : (lexemes 0 sym.toList).map Prod.fst = [.token (.symbol name)]) :
    ∃ f, readAll sym = .ok [f] ∧
      (∀ v, s.resolve sym = .ok v ↔
        ∃ note supply, (TypedLisp.analyse s.env s.ns f).run s.supply =
          .ok (.globalVar v note, supply)) ∧
      (∀ v args, s.resolve sym = .ok v →
        Session.invoke sym args s = lift .run (invokeVar v args) s) ∧
      ∀ args, (∃ g, (Session.invoke sym args s).1 = .error (.unknownVar g)) ↔
        ∃ text r, (TypedLisp.analyse s.env s.ns f).run s.supply =
          .error ⟨.unresolved text, r⟩ := by
  obtain ⟨r, hread⟩ := Lexer.readAll_of_lexemes_eq_symbol hsym
  refine ⟨_, hread, ?_, fun v args hv => invoke_of_resolve hv args, ?_⟩
  · intro v
    rw [run_analyse_atom]
    obtain ⟨w, hw, hatom⟩ | ⟨⟨g, hg⟩, text, hatom⟩ := resolve_cases hs.consistent sym r
    · simp [hw, hatom, Except.map, eq_comm]
    · simp [hg, hatom, Except.map]
  · intro args
    rw [run_analyse_atom]
    obtain ⟨w, hw, hatom⟩ | ⟨⟨g, hg⟩, text, hatom⟩ := resolve_cases hs.consistent sym r
    · -- the call finds a var, so that what it reports is an error of running
      have hcalled (g : String) : (Session.invoke sym args s).1 ≠ .error (.unknownVar g) := by
        rw [invoke_of_resolve hw]
        cases (callVar w args s).1 <;> simp [Except.mapError]
      simp [hcalled, hatom, Except.map]
    · simp [invoke_of_resolve_error hg, hatom, Except.map]

/-- In the namespace `app` the text `u/one` is a call of `user/one` by an alias, and `nope/one` is
the name of nothing. -/
theorem invoke_agrees_with_analysis_inApp :
    (∃ v, inApp.env.var? ⟨"user", "one"⟩ = some v ∧
      ∃ f, readAll "u/one" = .ok [f] ∧
        ∃ note supply, (TypedLisp.analyse inApp.env inApp.ns f).run inApp.supply =
          .ok (.globalVar v note, supply)) ∧
      ∃ f, readAll "nope/one" = .ok [f] ∧
        ∃ text r, (TypedLisp.analyse inApp.env inApp.ns f).run inApp.supply =
          .error ⟨.unresolved text, r⟩ := by
  constructor
  · obtain ⟨f, hread, htarget, -, -⟩ :=
      reachable_inApp.invoke_agrees_with_analysis "u/one" "u/one" (by cbv)
    have hone : (inApp.env.var? ⟨"user", "one"⟩).map .ok = some (inApp.resolve "u/one") := by cbv
    obtain ⟨v, hv, hresolve⟩ := Option.map_eq_some_iff.1 hone
    exact ⟨v, hv, f, hread, (htarget v).1 hresolve.symm⟩
  · obtain ⟨f, hread, -, -, hunknown⟩ :=
      reachable_inApp.invoke_agrees_with_analysis "nope/one" "nope/one" (by cbv)
    refine ⟨f, hread, (hunknown []).1 ⟨"nope/one", ?_⟩⟩
    rw [invoke_of_resolve_error (e := .unknownVar "nope/one") (by cbv)]

end Session

end TypedLisp
