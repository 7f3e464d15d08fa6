import TypedLisp.Proofs.Reading.Consumption

/-!
# Reading what was printed

The text of a form is lexed as the tokens of the form, with every string as `Text.reread` says
(`Form.significant_text`), so it is always read back as one form, `Form.reread`. This is the form
that was printed exactly if it is `Form.Printable`: no string in it has a character that is shown by
its code point.
-/

namespace TypedLisp

/-! ## Forms after printing and reading -/

/-- What the text of an atom is read as. -/
def Atom.reread : Atom → Atom
  | .str s => .str (Text.reread s)
  | a => a

theorem Atom.text_token (a : Atom) : a.token.text = a.text := by
  cases a with
  | symbol name =>
    rw [token]
    split
    · rename_i h
      rw [h]
      rfl
    · rfl
  | _ => rfl

theorem Atom.token_reread (a : Atom) : a.reread.token = a.token.reread := by
  cases a with
  | symbol name =>
    rw [reread, token]
    · split <;> rfl
    · simp
  | _ => rfl

namespace Form

variable {f : Form} {p : String × Form} {ps : List (String × Form)}

mutual

/-- What the text of a form is read as. -/
def reread : Form → Form
  | .atom a r => .atom a.reread r
  | .seq b items r => .seq b (rereadAll items) r

/-- What the texts of some forms are read as. -/
def rereadAll : List Form → List Form
  | [] => []
  | f :: fs => f.reread :: rereadAll fs

end

theorem rereadAll_eq_map (fs : List Form) : rereadAll fs = fs.map reread := by
  induction fs with
  | nil => rfl
  | cons f fs ih => simp [rereadAll, ih]

theorem Grammatical.reread (h : f.Grammatical) : f.reread.Grammatical := by
  induction f with
  | atom a r =>
    rw [Form.reread, grammatical_atom_iff]
    have := grammatical_atom_iff.1 h
    cases a <;> exact this
  | seq b items r ih =>
    obtain ⟨hlen, hitems⟩ := grammatical_seq_iff.1 h
    rw [Form.reread, rereadAll_eq_map, grammatical_seq_iff, List.length_map]
    exact ⟨hlen, List.forall_mem_map.2 fun f hf => ih f hf (hitems f hf)⟩

/-- Whether no string in a form has a character that is shown by its code point. -/
def Printable (f : Form) : Prop :=
  ∀ s, .str s ∈ f.atoms → ∀ c ∈ s.toList, ¬Text.ByCodePoint c

/-- Printing and reading changes a form, its ranges apart, exactly if it is not printable. -/
theorem bare_reread_eq_iff : f.reread.bare = f.bare ↔ f.Printable := by
  have strings : f.reread.bare = f.bare ↔ ∀ s, .str s ∈ f.atoms → Text.reread s = s := by
    induction f with
    | atom a r => cases a <;> simp [reread, Atom.reread, bare, atoms]
    | seq b items r ih =>
      simp only [reread, bare, rereadAll_eq_map, bareAll_eq_map, List.map_map, seq.injEq, true_and,
        and_true, List.map_inj_left, Function.comp_apply, atoms, atomsAll_eq_flatMap,
        List.mem_flatMap]
      constructor
      · rintro h s ⟨f, hf, hs⟩
        exact (ih f hf).1 (h f hf) s hs
      · intro h f hf
        exact (ih f hf).2 fun s hs => h s ⟨f, hf, hs⟩
  rw [strings]
  exact forall₂_congr fun s _ => Text.reread_eq_self_iff

/-! ## The text of forms -/

/-- The text of some forms, with a text before each one. -/
def spaced (parts : List (String × Form)) : String :=
  String.join (parts.map fun p => p.1 ++ p.2.text)

/-- Whether the texts before forms keep them apart: they are blank, and only the first may be
empty. -/
structure Apart (parts : List (String × Form)) : Prop where
  blank : ∀ p ∈ parts, ∀ c ∈ p.1.toList, Lexer.isBlank c
  nonempty : ∀ p ∈ parts.tail, p.1 ≠ ""

theorem toList_spaced_cons (p : String × Form) (ps : List (String × Form)) :
    (spaced (p :: ps)).toList = p.1.toList ++ (p.2.text.toList ++ (spaced ps).toList) := by
  simp [spaced, String.join_cons]

theorem intercalate_texts (f : Form) (fs : List Form) :
    " ".intercalate (texts (f :: fs)) = spaced (("", f) :: fs.map (" ", ·)) := by
  induction fs generalizing f with
  | nil => simp [texts, spaced]
  | cons g fs ih =>
    have := ih g
    simp only [texts, spaced, List.map_cons, String.join_cons, String.intercalate_cons_cons,
      String.empty_append] at this ⊢
    rw [this, String.append_assoc, String.append_assoc]

theorem Apart.tail (h : Apart (p :: ps)) : Apart ps :=
  ⟨fun q hq => h.blank q (List.mem_cons_of_mem _ hq),
    fun q hq => h.nonempty q (List.mem_of_mem_tail hq)⟩

theorem Apart.delimits (h : Apart (p :: ps)) {rest : List Char} (hrest : Lexer.Delimits rest) :
    Lexer.Delimits ((spaced ps).toList ++ rest) := by
  cases ps with
  | nil => simpa [spaced] using hrest
  | cons q qs =>
    have hq : q.1.toList ≠ [] := by simpa using h.nonempty q (by simp)
    obtain ⟨c, cs, hcs⟩ := List.exists_cons_of_ne_nil hq
    rw [toList_spaced_cons, hcs]
    exact Lexer.delimits_of_isBlank (h.blank q (by simp) c (by simp [hcs])) _

/-- The lexemes of forms kept apart, if each form is lexed as its own tokens. -/
theorem significant_spaced_of_forall (hps : Apart ps) (rest : List Char)
    (hrest : Lexer.Delimits rest)
    (h : ∀ p ∈ ps, ∀ rest, Lexer.Delimits rest → Lexer.significant (p.2.text.toList ++ rest) =
      p.2.reread.tokens.map .token ++ Lexer.significant rest) :
    Lexer.significant ((spaced ps).toList ++ rest) =
      (tokensAll (ps.map fun p => p.2.reread)).map .token ++ Lexer.significant rest := by
  induction ps with
  | nil => simp [spaced, tokensAll]
  | cons p ps ih =>
    obtain ⟨hp, hall⟩ := List.forall_mem_cons.1 h
    calc Lexer.significant ((spaced (p :: ps)).toList ++ rest)
        = Lexer.significant (p.2.text.toList ++ ((spaced ps).toList ++ rest)) := by
          rw [toList_spaced_cons, List.append_assoc, List.append_assoc,
            Lexer.significant_blanks (hps.blank p (by simp))]
      _ = p.2.reread.tokens.map .token ++ Lexer.significant ((spaced ps).toList ++ rest) :=
          hp _ (hps.delimits hrest)
      _ = _ := by
          rw [ih hps.tail hall, List.map_cons, tokensAll, List.map_append, List.append_assoc]

/-- **The text of a form is lexed as the tokens of the form**, strings apart. -/
theorem significant_text {f : Form} (hlex : ∀ a ∈ f.atoms, a.token.Lexical) {rest : List Char}
    (hrest : Lexer.Delimits rest) :
    Lexer.significant (f.text.toList ++ rest) =
      f.reread.tokens.map .token ++ Lexer.significant rest := by
  induction f generalizing rest with
  | atom a r =>
    rw [text, ← Atom.text_token, Lexer.significant_text (hlex a (by simp [atoms])) fun _ => hrest,
      reread, tokens, Atom.token_reread]
    rfl
  | seq b items r ih =>
    rw [atoms, atomsAll_eq_flatMap] at hlex
    have hitem : ∀ f ∈ items, ∀ rest, Lexer.Delimits rest →
        Lexer.significant (f.text.toList ++ rest) =
          f.reread.tokens.map .token ++ Lexer.significant rest :=
      fun f hf rest hrest => ih f hf (fun a ha => hlex a (List.mem_flatMap.2 ⟨f, hf, ha⟩)) hrest
    -- The items are kept apart by spaces, and the closing bracket delimits the last one.
    have hclose : Lexer.Delimits (b.closer.text.toList ++ rest) := by
      intro c hc
      cases b <;> (cases hc; decide)
    have hitems : Lexer.significant
        ((" ".intercalate (texts items)).toList ++ (b.closer.text.toList ++ rest)) =
          (tokensAll (rereadAll items)).map .token ++
            Lexer.significant (b.closer.text.toList ++ rest) := by
      cases items with
      | nil => simp [texts, rereadAll, tokensAll]
      | cons f fs =>
        rw [intercalate_texts, significant_spaced_of_forall ⟨?_, ?_⟩ _ hclose ?_, rereadAll_eq_map]
        · simp [Function.comp_def]
        · simp [Lexer.isBlank]
        · simp
        · simpa using hitem
    calc Lexer.significant ((seq b items r).text.toList ++ rest)
        = Lexer.significant ((Token.opening b).text.toList ++
            ((" ".intercalate (texts items)).toList ++ (b.closer.text.toList ++ rest))) := by
          simp [text, Token.text]
      _ = .token (.opening b) :: ((tokensAll (rereadAll items)).map .token ++
            Lexer.significant ((Token.closing b.closer).text.toList ++ rest)) := by
          rw [Lexer.significant_text (t := .opening b) trivial (by rintro ⟨⟩), hitems]
          rfl
      _ = _ := by
          rw [Lexer.significant_text (t := .closing b.closer) trivial (by rintro ⟨⟩)]
          simp [reread, tokens, Token.reread]

theorem readAll_spaced_of_grammatical (ps : List (String × Form)) (hps : Apart ps)
    (hforms : ∀ p ∈ ps, p.2.Grammatical ∧ ∀ a ∈ p.2.atoms, a.token.Lexical) :
    ∃ gs, readAll (spaced ps) = .ok gs ∧ gs.map bare = ps.map fun p => p.2.reread.bare := by
  have hlexed := significant_spaced_of_forall hps [] nofun fun p hp rest hrest =>
    significant_text (hforms p hp).2 hrest
  rw [List.append_nil, Lexer.significant_nil, List.append_nil] at hlexed
  obtain ⟨hinvalid, htokens⟩ := Lexer.tokens_of_significant hlexed
  obtain ⟨gs, hgs, hbare⟩ := readAll_of_tokens hinvalid
    (List.forall_mem_map.2 fun p hp => (hforms p hp).1.reread) htokens
  exact ⟨gs, hgs, by rw [hbare, List.map_map]; rfl⟩

theorem readAll_spaced (ps : List (String × Form)) (hps : Apart ps)
    (hread : ∀ p ∈ ps, ∃ source, p.2 ∈ (read source).1) :
    ∃ gs, readAll (spaced ps) = .ok gs ∧ gs.map bare = ps.map fun p => p.2.reread.bare :=
  readAll_spaced_of_grammatical ps hps fun p hp =>
    let ⟨source, h⟩ := hread p hp
    grammatical_of_mem_read source h

theorem readAll_text_of_printable (hf : f.Grammatical) (hlex : ∀ a ∈ f.atoms, a.token.Lexical)
    (hprintable : f.Printable) : ∃ g, readAll f.text = .ok [g] ∧ g.bare = f.bare := by
  obtain ⟨gs, hgs, hbare⟩ := readAll_spaced_of_grammatical [("", f)] ⟨by simp, by simp⟩
    (by simpa using ⟨hf, hlex⟩)
  obtain ⟨g, gs', rfl, hg, hnil⟩ := List.map_eq_cons_iff.1 hbare
  obtain rfl : gs' = [] := by simpa using hnil
  have htext : spaced [("", f)] = f.text := by simp [spaced]
  rw [htext] at hgs
  exact ⟨g, hgs, hg.trans (bare_reread_eq_iff.2 hprintable)⟩

end Form

/-- **A form that was read comes back from its text exactly if it is printable**, and printable
forms come back together from a text that has them in turn with blanks between them. -/
theorem readAll_text_iff_printable :
    (∀ source f, f ∈ (read source).1 →
      ((∃ g, readAll f.text = .ok [g] ∧ g.bare = f.bare) ↔ f.Printable)) ∧
    ∀ ps : List (String × Form), Form.Apart ps →
      (∀ p ∈ ps, (∃ source, p.2 ∈ (read source).1) ∧ p.2.Printable) →
      ∃ gs, readAll (Form.spaced ps) = .ok gs ∧ gs.map Form.bare = ps.map fun p => p.2.bare := by
  constructor
  · intro source f hf
    obtain ⟨gs, hgs, hbare⟩ := Form.readAll_spaced [("", f)]
      ⟨by simp, by simp⟩ (by simpa using ⟨source, hf⟩)
    obtain ⟨g, gs', rfl, hg, hnil⟩ := List.map_eq_cons_iff.1 hbare
    obtain rfl : gs' = [] := by simpa using hnil
    have htext : Form.spaced [("", f)] = f.text := by simp [Form.spaced]
    rw [htext] at hgs
    rw [← Form.bare_reread_eq_iff]
    constructor
    · rintro ⟨g', hg', hbare'⟩
      cases hgs.symm.trans hg'
      exact hg.symm.trans hbare'
    · intro h
      exact ⟨g, hgs, hg.trans h⟩
  · intro ps hapart hps
    obtain ⟨gs, hgs, hbare⟩ := Form.readAll_spaced ps hapart fun p hp => (hps p hp).1
    refine ⟨gs, hgs, hbare.trans (List.map_congr_left fun p hp => ?_)⟩
    exact Form.bare_reread_eq_iff.2 (hps p hp).2

/-- A line break, a qualified symbol and the delete character. -/
def threeAtoms : List Form :=
  [.atom (.str "\n") ⟨⟨1, 1⟩, ⟨1, 5⟩⟩, .atom (.qualified "a" "b") ⟨⟨1, 6⟩, ⟨1, 9⟩⟩,
    .atom (.str "\x7f") ⟨⟨1, 10⟩, ⟨1, 13⟩⟩]

theorem read_threeAtoms : read "\"\\n\" a/b \"\x7f\"" = (threeAtoms, []) := by
  have hlexemes : lexemes 0 "\"\\n\" a/b \"\x7f\"".toList =
      [(.token (.str "\n"), ⟨0, 4⟩), (.blank, ⟨4, 5⟩), (.token (.symbol "a/b"), ⟨5, 8⟩),
        (.blank, ⟨8, 9⟩), (.token (.str "\x7f"), ⟨9, 12⟩)] := by
    decide +kernel
  rw [read, tokens, invalidText, hlexemes]
  rfl

/-- The first two atoms come back from a text of two lines; the last does not come back from its
own. -/
theorem readAll_text_threeAtoms :
    (∃ gs, readAll (Form.spaced [("", threeAtoms[0]), ("\n ", threeAtoms[1])]) = .ok gs ∧
      gs.map Form.bare = [threeAtoms[0].bare, threeAtoms[1].bare]) ∧
    ¬∃ g, readAll threeAtoms[2].text = .ok [g] ∧ g.bare = threeAtoms[2].bare := by
  have hmem : ∀ f ∈ threeAtoms, f ∈ (read "\"\\n\" a/b \"\x7f\"").1 := fun f hf => by
    rwa [read_threeAtoms]
  constructor
  · refine readAll_text_iff_printable.2 [("", threeAtoms[0]), ("\n ", threeAtoms[1])]
      ⟨by simp [Lexer.isBlank], by simp⟩ ?_
    simp only [List.forall_mem_cons, List.not_mem_nil, IsEmpty.forall_iff, implies_true, and_true]
    refine ⟨⟨⟨_, hmem _ (by simp [threeAtoms])⟩, ?_⟩, ⟨_, hmem _ (by simp [threeAtoms])⟩, ?_⟩
    · intro s hs
      obtain rfl : s = "\n" := by simpa [threeAtoms, Form.atoms] using hs
      exact List.forall_mem_singleton.2 (by decide)
    · intro s hs
      simp [threeAtoms, Form.atoms] at hs
  · rw [readAll_text_iff_printable.1 _ _ (hmem threeAtoms[2] (by simp [threeAtoms]))]
    intro h
    exact h "\x7f" (by simp [threeAtoms, Form.atoms]) '\x7f' (by decide) (by decide)

end TypedLisp
