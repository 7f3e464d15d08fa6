import Mathlib.Data.List.TakeWhile
import TypedLisp.Proofs.Scoping

/-!
# The grammar of forms

Written down, a form is the sequence of its tokens (`Form.tokens`): the one token of an atom, or the
brackets of a sequence around the tokens of its items. `Form.Grammatical` says which forms are
sentences: the items of maps come in pairs, and every atom is what its token stands for, so symbols
are divided where the first slash inside them stands. The ranges of forms are no part of it
(`Form.bare`).
-/

namespace TypedLisp

/-- A run of characters of a class ends where a character outside the class stands. -/
theorem takeWhile_append_of_stop {p : Char → Bool} {xs rest : List Char} (h : ∀ x ∈ xs, p x)
    (hrest : ∀ c ∈ rest.head?, p c = false) :
    (xs ++ rest).takeWhile p = xs ∧ (xs ++ rest).dropWhile p = rest := by
  induction xs with
  | nil => cases rest <;> simp_all
  | cons x xs ih =>
    obtain ⟨hx, hxs⟩ := List.forall_mem_cons.1 h
    simp [hx, ih hxs]

/-! ## Atoms and their tokens -/

/-- The atom that a token stands for, unless it is a bracket. -/
def Token.atom? : Token → Option Atom
  | .opening _ => none
  | .closing _ => none
  | .ascribe => some (.symbol "::")
  | .bool b => some (.bool b)
  | .int n => some (.int n)
  | .str s => some (.str s)
  | .symbol name => some (.ofSymbol name)

namespace Atom

/-- The token that an atom is written as. -/
def token : Atom → Token
  | .bool b => .bool b
  | .int n => .int n
  | .str s => .str s
  | .symbol name => if name = "::" then .ascribe else .symbol name
  | .qualified qualifier name => .symbol (qualifier ++ "/" ++ name)

/-- Whether a symbol is divided at its first slash, unless this begins or ends it. -/
def Divided : Atom → Prop
  | .symbol name => ∀ q n, name.toList = q ++ '/' :: n → '/' ∉ q → q = [] ∨ n = []
  | .qualified qualifier name => qualifier ≠ "" ∧ '/' ∉ qualifier.toList ∧ name ≠ ""
  | _ => True

theorem ofSymbol_of_slash {name : String} {q n : List Char} (h : name.toList = q ++ '/' :: n)
    (hslash : '/' ∉ q) (hq : q ≠ []) (hn : n ≠ []) :
    ofSymbol name = .qualified (String.ofList q) (String.ofList n) := by
  have hstop : ∀ c ∈ ('/' :: n).head?, (c != '/') = false := by simp
  obtain ⟨htake, hdrop⟩ := takeWhile_append_of_stop
    (fun x hx => by simpa using fun h : x = '/' => hslash (h ▸ hx)) hstop
  obtain ⟨a, q, rfl⟩ := List.exists_cons_of_ne_nil hq
  obtain ⟨b, n, rfl⟩ := List.exists_cons_of_ne_nil hn
  simp only [ofSymbol, h, htake, hdrop]

theorem ofSymbol_cases (name : String) :
    (∃ q n, name.toList = q ++ '/' :: n ∧ '/' ∉ q ∧ q ≠ [] ∧ n ≠ [] ∧
      ofSymbol name = .qualified (String.ofList q) (String.ofList n)) ∨
    (Divided (.symbol name) ∧ ofSymbol name = .symbol name) := by
  by_cases h : Divided (.symbol name)
  · refine .inr ⟨h, ?_⟩
    simp only [ofSymbol]
    split
    · rename_i a q b c n htake hdrop
      -- A division would put a slash after a qualifier, against `Divided`.
      obtain rfl : b = '/' := by
        have := List.head?_dropWhile_not (· != '/') name.toList
        simpa [hdrop] using this
      have hsplit : name.toList = (a :: q) ++ '/' :: (c :: n) := by
        rw [← htake, ← hdrop, List.takeWhile_append_dropWhile]
      have hslash : '/' ∉ a :: q := by
        intro hmem
        rw [← htake] at hmem
        simpa using List.mem_takeWhile_imp hmem
      simpa using h _ _ hsplit hslash
    · rfl
  · refine .inl ?_
    simp only [Divided, not_forall, not_or] at h
    obtain ⟨q, n, hsplit, hslash, hq, hn⟩ := h
    exact ⟨q, n, hsplit, hslash, hq, hn, ofSymbol_of_slash hsplit hslash hq hn⟩

theorem atom?_token {a : Atom} (h : a.Divided) : a.token.atom? = some a := by
  cases a with
  | symbol name =>
    rw [token]
    split
    · rename_i hname
      rw [hname, Token.atom?]
    · obtain ⟨q, n, hsplit, hslash, hq, hn, -⟩ | ⟨-, hwhole⟩ := ofSymbol_cases name
      · exact absurd (h q n hsplit hslash) (by simp [hq, hn])
      · rw [Token.atom?, hwhole]
  | qualified q n =>
    obtain ⟨hq, hslash, hn⟩ := h
    rw [token, Token.atom?, ofSymbol_of_slash (q := q.toList) (n := n.toList) (by simp) hslash
      (by simpa using hq) (by simpa using hn)]
    simp
  | _ => rfl

end Atom

/-- An atom is written as the token that it was read from; no symbol token has the text of the
ascription sign. -/
theorem Token.token_of_atom? {t : Token} {a : Atom} (h : t.atom? = some a)
    (ht : t ≠ .symbol "::") : a.token = t ∧ a.Divided := by
  cases t with
  | opening | closing => cases h
  | ascribe =>
    cases h
    refine ⟨rfl, fun q n hsplit _ => ?_⟩
    have : '/' ∈ "::".toList := hsplit ▸ by simp
    exact absurd this (by decide)
  | symbol name =>
    cases h
    obtain ⟨q, n, hsplit, hslash, hq, hn, hof⟩ | ⟨hwhole, hof⟩ := Atom.ofSymbol_cases name
    · rw [hof]
      refine ⟨?_, by simpa using hq, by simpa using hslash, by simpa using hn⟩
      have hname : name = String.ofList q ++ "/" ++ String.ofList n :=
        String.toList_injective (by simp [hsplit])
      rw [Atom.token, ← hname]
    · rw [hof]
      have hne : name ≠ "::" := fun h => ht (by rw [h])
      exact ⟨by rw [Atom.token, if_neg hne], hwhole⟩
  | _ => cases h; exact ⟨rfl, trivial⟩

/-! ## Forms and their tokens -/

namespace Form

@[induction_eliminator]
theorem ind {motive : Form → Prop} (atom : ∀ a r, motive (.atom a r))
    (seq : ∀ b items r, (∀ f ∈ items, motive f) → motive (.seq b items r)) (f : Form) : motive f :=
  @Form.rec motive (fun fs => ∀ f ∈ fs, motive f) atom seq (fun _ h => nomatch h)
    (fun _ _ hf hfs => List.forall_mem_cons.2 ⟨hf, hfs⟩) f

theorem texts_eq_map (fs : List Form) : texts fs = fs.map text := by
  induction fs with
  | nil => rfl
  | cons f fs ih => rw [texts, ih, List.map_cons]

mutual

/-- The tokens of a form in order. -/
def tokens : Form → List Token
  | .atom a _ => [a.token]
  | .seq b items _ => .opening b :: (tokensAll items ++ [.closing b.closer])

/-- The tokens of some forms in order. -/
def tokensAll : List Form → List Token
  | [] => []
  | f :: fs => f.tokens ++ tokensAll fs

end

mutual

/-- The atoms of a form in order. -/
def atoms : Form → List Atom
  | .atom a _ => [a]
  | .seq _ items _ => atomsAll items

/-- The atoms of some forms in order. -/
def atomsAll : List Form → List Atom
  | [] => []
  | f :: fs => f.atoms ++ atomsAll fs

end

mutual

/-- The form without its ranges: what it is, not where it stands. -/
def bare : Form → Form
  | .atom a _ => .atom a .nowhere
  | .seq b items _ => .seq b (bareAll items) .nowhere

/-- The forms without their ranges. -/
def bareAll : List Form → List Form
  | [] => []
  | f :: fs => f.bare :: bareAll fs

end

theorem atomsAll_eq_flatMap (fs : List Form) : atomsAll fs = fs.flatMap atoms := by
  induction fs with
  | nil => rfl
  | cons f fs ih => simp [atomsAll, ih]

theorem bareAll_eq_map (fs : List Form) : bareAll fs = fs.map bare := by
  induction fs with
  | nil => rfl
  | cons f fs ih => simp [bareAll, ih]

/-- Whether a form is a sentence of the grammar: maps have keys and values in turn, and symbols are
divided at a slash. -/
structure Grammatical (f : Form) : Prop where
  even : f.EvenMaps
  divided : ∀ a ∈ f.atoms, a.Divided

theorem grammatical_atom_iff {a : Atom} {r : Range} : (atom a r).Grammatical ↔ a.Divided :=
  ⟨fun h => h.divided a (by simp [atoms]), fun h => ⟨trivial, by simpa [atoms] using h⟩⟩

theorem grammatical_seq_iff {b : Bracket} {items : List Form} {r : Range} :
    (seq b items r).Grammatical ↔
      (b = .map → items.length % 2 = 0) ∧ ∀ f ∈ items, f.Grammatical := by
  constructor
  · rintro ⟨⟨hlen, heven⟩, hdiv⟩
    rw [atoms, atomsAll_eq_flatMap] at hdiv
    exact ⟨hlen, fun f hf => ⟨evenMapsAll_iff.1 heven f hf,
      fun a ha => hdiv a (List.mem_flatMap.2 ⟨f, hf, ha⟩)⟩⟩
  · rintro ⟨hlen, hitems⟩
    refine ⟨⟨hlen, evenMapsAll_iff.2 fun f hf => (hitems f hf).even⟩, fun a ha => ?_⟩
    rw [atoms, atomsAll_eq_flatMap] at ha
    obtain ⟨f, hf, haf⟩ := List.mem_flatMap.1 ha
    exact (hitems f hf).divided a haf

end Form

/-! ## Reading the tokens of forms -/

namespace Reading

variable {text : List Char}

theorem step_of_atom? {t : Token} {a : Atom} (h : t.atom? = some a) (r : Reading) (s : Span) :
    r.step text (t, s) = r.add (.atom a (s.range text)) := by
  cases t <;> cases h <;> rfl

theorem foldl_add_openForms (gs : List Form) {r : Reading} {o : OpenForm} {os : List OpenForm}
    (h : r.openForms = o :: os) :
    gs.foldl add r = { r with openForms := { o with items := gs.reverse ++ o.items } :: os } := by
  induction gs generalizing r o with
  | nil => simp [← h]
  | cons g gs ih =>
    rw [List.foldl_cons, ih (o := { o with items := g :: o.items }) (by simp [add, h])]
    simp [add, h]

theorem foldl_add_forms (gs : List Form) {r : Reading} (h : r.openForms = []) :
    gs.foldl add r = { r with forms := gs.reverse ++ r.forms } := by
  induction gs generalizing r with
  | nil => simp
  | cons g gs ih =>
    rw [List.foldl_cons, ih (by simp [add, h])]
    simp [add, h]

/-- What is read of the tokens of several forms, if each form is read back from its own. -/
theorem foldl_step_of_forall {fs : List Form}
    (h : ∀ f ∈ fs, ∀ (ts : List (Token × Span)) (r : Reading), ts.map Prod.fst = f.tokens →
      ∃ g, g.bare = f.bare ∧ ts.foldl (step text) r = r.add g)
    (ts : List (Token × Span)) (r : Reading) (hts : ts.map Prod.fst = Form.tokensAll fs) :
    ∃ gs : List Form, gs.map Form.bare = fs.map Form.bare ∧
      ts.foldl (step text) r = gs.foldl add r := by
  induction fs generalizing ts r with
  | nil =>
    obtain rfl : ts = [] := by simpa [Form.tokensAll] using hts
    exact ⟨[], rfl, rfl⟩
  | cons f fs ih =>
    obtain ⟨ts₁, ts₂, rfl, h₁, h₂⟩ := List.map_eq_append_iff.1 hts
    obtain ⟨hf, hfs⟩ := List.forall_mem_cons.1 h
    obtain ⟨g, hg, hrun⟩ := hf ts₁ r h₁
    obtain ⟨gs, hgs, hruns⟩ := ih hfs ts₂ (r.add g) h₂
    exact ⟨g :: gs, by simp [hg, hgs], by rw [List.foldl_append, hrun, hruns, List.foldl_cons]⟩

/-- **The tokens of a grammatical form are read as that form**, whatever was read before. -/
theorem foldl_step_tokens {f : Form} (hf : f.Grammatical) (ts : List (Token × Span)) (r : Reading)
    (hts : ts.map Prod.fst = f.tokens) :
    ∃ g, g.bare = f.bare ∧ ts.foldl (step text) r = r.add g := by
  induction f generalizing ts r with
  | atom a range =>
    obtain ⟨⟨t, s⟩, ts', rfl, rfl, hnil⟩ := List.map_eq_cons_iff.1 hts
    obtain rfl : ts' = [] := by simpa using hnil
    exact ⟨.atom a (s.range text), rfl,
      step_of_atom? (Atom.atom?_token (Form.grammatical_atom_iff.1 hf)) r s⟩
  | seq b items range ih =>
    obtain ⟨hlen, hitems⟩ := Form.grammatical_seq_iff.1 hf
    obtain ⟨⟨t, s⟩, ts', rfl, rfl, hrest⟩ := List.map_eq_cons_iff.1 hts
    obtain ⟨ts₁, ts₂, rfl, h₁, h₂⟩ := List.map_eq_append_iff.1 hrest
    obtain ⟨⟨t', s'⟩, ts₃, rfl, rfl, hnil⟩ := List.map_eq_cons_iff.1 h₂
    obtain rfl : ts₃ = [] := by simpa using hnil
    -- The items are read inside the bracket, which the closing token then ends.
    let inside : Reading := { r with openForms := ⟨b, s, []⟩ :: r.openForms }
    obtain ⟨gs, hgs, hrun⟩ :=
      foldl_step_of_forall (fun f hf => ih f hf (hitems f hf)) ts₁ inside h₁
    have hgslen : gs.length = items.length := by simpa using congrArg List.length hgs
    refine ⟨.seq b gs ((s.merge s').range text), by simp [Form.bare, Form.bareAll_eq_map, hgs], ?_⟩
    have heven : ¬(b = .map ∧ gs.length % 2 ≠ 0) := fun h => h.2 (hgslen ▸ hlen h.1)
    rw [List.foldl_cons, List.foldl_append, show r.step text (.opening b, s) = inside from rfl,
      hrun, foldl_add_openForms gs rfl]
    simp only [List.foldl_cons, List.foldl_nil, step, if_true, close, List.append_nil,
      List.length_reverse, List.reverse_reverse, if_neg heven, inside]

/-- **The tokens of grammatical forms are read as these forms**, whatever was read before. -/
theorem foldl_step_tokensAll (text : List Char) {fs : List Form} (hfs : ∀ f ∈ fs, f.Grammatical)
    (ts : List (Token × Span)) (r : Reading) (hts : ts.map Prod.fst = Form.tokensAll fs) :
    ∃ gs : List Form, gs.map Form.bare = fs.map Form.bare ∧
      ts.foldl (step text) r = gs.foldl add r :=
  foldl_step_of_forall (fun f hf => foldl_step_tokens (hfs f hf)) ts r hts

end Reading

/-- A text whose tokens are those of grammatical forms, and that has nothing else but blanks, is
read as these forms. -/
theorem readAll_of_tokens {source : String} {fs : List Form} (hinvalid : invalidText source = [])
    (hfs : ∀ f ∈ fs, f.Grammatical)
    (hts : (TypedLisp.tokens source).map Prod.fst = Form.tokensAll fs) :
    ∃ forms, readAll source = .ok forms ∧ forms.map Form.bare = fs.map Form.bare := by
  obtain ⟨gs, hgs, hrun⟩ :=
    Reading.foldl_step_tokensAll source.toList hfs (TypedLisp.tokens source) {} hts
  rw [Reading.foldl_add_forms gs rfl] at hrun
  refine ⟨gs, ?_, hgs⟩
  simp [readAll, read, hrun, hinvalid, Reading.finish]

end TypedLisp
