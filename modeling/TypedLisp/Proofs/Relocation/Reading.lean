import TypedLisp.Proofs.Reading.Positions
import TypedLisp.Proofs.Relocation.Forms

/-!
# Reading a text line by line

A line break ends every lexeme but blank space, a string and text that is no token. So if a text has
neither an open string nor any other text that is no token, then what comes on the lines after it is
lexed as it is on its own, further on, and tokens that have moved make the same forms in other
places.
-/

namespace TypedLisp

/-! ## Places that move -/

/-- The position so many lines further down. -/
def Pos.down (n : Nat) (p : Pos) : Pos := ⟨p.line + n, p.col⟩

/-- The range with both ends moved. -/
def Range.map (g : Pos → Pos) (r : Range) : Range := ⟨g r.start, g r.stop⟩

/-- The span so many bytes further on. -/
def Span.shift (n : Nat) (s : Span) : Span := ⟨s.start + n, s.stop + n⟩

theorem Span.shift_zero : Span.shift 0 = id := rfl

theorem Span.merge_shift (n : Nat) (s t : Span) :
    (s.shift n).merge (t.shift n) = (s.merge t).shift n := by
  simp only [merge, shift, Span.mk.injEq]
  omega

/-- The error with its range moved. -/
def ReadError.relocate (g : Range → Range) (e : ReadError) : ReadError := ⟨e.problem, g e.range⟩

/-! ## Lexing -/

namespace Lexer

variable {c : Char} {cs s₁ s₂ : List Char} {here : Nat}

/-- What is not blank in a text that begins at byte `here`. -/
def marks (here : Nat) (text : List Char) : List (Lexeme × Span) :=
  (lexemes here text).filter fun p => p.1 ≠ .blank

@[simp] theorem marks_nil (here : Nat) : marks here [] = [] := by simp [marks, lexemes]

theorem marks_cons (here : Nat) (c : Char) (cs : List Char) :
    marks here (c :: cs) =
      [((scan c cs).lexeme, ⟨here, here + byteLength (c :: (scan c cs).more)⟩)].filter
          (fun p => p.1 ≠ .blank) ++
        marks (here + byteLength (c :: (scan c cs).more)) (scan c cs).rest := by
  rw [marks, lexemes, List.filter_cons, marks]
  by_cases h : (scan c cs).lexeme = .blank <;> simp [h]

theorem filterMap_token?_marks (text : List Char) :
    (marks here text).filterMap Lexeme.token? = (lexemes here text).filterMap Lexeme.token? := by
  rw [marks, List.filterMap_filter]
  refine List.filterMap_congr fun p _ => ?_
  obtain ⟨l, s⟩ := p
  cases l <;> rfl

theorem filterMap_invalid?_marks (text : List Char) :
    (marks here text).filterMap Lexeme.invalid? = (lexemes here text).filterMap Lexeme.invalid? := by
  rw [marks, List.filterMap_filter]
  refine List.filterMap_congr fun p _ => ?_
  obtain ⟨l, s⟩ := p
  cases l <;> rfl

theorem marks_blank (hc : isBlank c) (here : Nat) (cs : List Char) :
    marks here (c :: cs) = marks (here + c.utf8Size) cs := by
  have hscan : ∀ {c} cs, isBlank c →
      scan c cs = ⟨.blank, cs.takeWhile isBlank, cs.dropWhile isBlank⟩ := fun cs hc => by
    rw [scan, if_pos hc]
  rw [marks_cons, hscan cs hc]
  cases cs with
  | nil => simp
  | cons d ds =>
    by_cases hd : isBlank d
    · rw [marks_cons _ d ds, hscan ds hd]
      simp [hd, byteLength, Nat.add_assoc]
    · simp [hd, byteLength]

theorem takeWhile_append_line {p : Char → Bool} (hp : p '\n' = false) (cs rest : List Char) :
    (cs ++ '\n' :: rest).takeWhile p = cs.takeWhile p ∧
      (cs ++ '\n' :: rest).dropWhile p = cs.dropWhile p ++ '\n' :: rest := by
  induction cs with
  | nil => simp [hp]
  | cons c cs ih => by_cases hc : p c <;> simp [hc, ih]

theorem scanString_append (h : ∀ t, (scanString cs).lexeme ≠ .invalid t) (rest : List Char) :
    scanString (cs ++ rest) =
      ⟨(scanString cs).lexeme, (scanString cs).more, (scanString cs).rest ++ rest⟩ := by
  unfold scanString at h
  split at h
  · rename_i body after hsplit
    have hcs : body ++ '"' :: after = cs := by
      have happend := splitString_append cs
      rwa [hsplit] at happend
    have hscan : ∀ after', scanString (body ++ '"' :: after') =
        ⟨.token (.str (String.ofList (unescape body))), body ++ ['"'], after'⟩ := fun after' => by
      rw [scanString, splitString_closed hsplit after']
      rfl
    rw [← hcs, List.append_assoc, List.cons_append, hscan, hscan]
  · exact absurd rfl (h _)

theorem scanMark_append (h : ∀ t, (scanMark c cs).lexeme ≠ .invalid t) (rest : List Char) :
    scanMark c (cs ++ rest) =
      ⟨(scanMark c cs).lexeme, (scanMark c cs).more, (scanMark c cs).rest ++ rest⟩ := by
  unfold scanMark at h
  split at h
  case h_9 => exact scanString_append h rest
  case h_10 => exact absurd rfl (h _)
  all_goals rfl

/-- **A line break does not change what is scanned before it**, unless that is blank or no token. -/
theorem scan_append_line (hc : ¬isBlank c) (h : ∀ t, (scan c cs).lexeme ≠ .invalid t)
    (rest : List Char) : scan c (cs ++ '\n' :: rest) =
      ⟨(scan c cs).lexeme, (scan c cs).more, (scan c cs).rest ++ '\n' :: rest⟩ := by
  by_cases hcomment : c = ';'
  · obtain ⟨htake, hdrop⟩ := takeWhile_append_line (p := (· != '\n')) rfl cs rest
    simp only [scan, if_neg hc, if_pos hcomment, htake, hdrop]
  by_cases hdigit : c.isDigit
  · obtain ⟨htake, hdrop⟩ := takeWhile_append_line (p := Char.isDigit) rfl cs rest
    simp only [scan, if_neg hc, if_neg hcomment, if_pos hdigit, htake, hdrop]
  by_cases hstart : isSymbolStart c
  · obtain ⟨htake, hdrop⟩ := takeWhile_append_line (p := isSymbolChar) rfl cs rest
    simp only [scan, if_neg hc, if_neg hcomment, if_neg hdigit, if_pos hstart, htake, hdrop]
  have hmark : ∀ ds, scan c ds = scanMark c ds := fun ds => by
    simp only [scan, if_neg hc, if_neg hcomment, if_neg hdigit, if_neg hstart]
  rw [hmark] at h ⊢
  rw [hmark]
  exact scanMark_append h _

/-- **What comes after a line break is lexed as on its own**, if all that comes before it is blank or
a token. -/
theorem marks_append_line (here : Nat) (s₁ s₂ : List Char)
    (h : ∀ p ∈ marks here s₁, ∀ t, p.1 ≠ .invalid t) :
    marks here (s₁ ++ '\n' :: s₂) = marks here s₁ ++ marks (here + byteLength s₁ + 1) s₂ := by
  match s₁ with
  | [] =>
    rw [List.nil_append, marks_nil, List.nil_append, marks_blank (by decide)]
    rfl
  | c :: cs =>
    by_cases hc : isBlank c
    · rw [marks_blank hc] at h ⊢
      rw [List.cons_append, marks_blank hc, marks_append_line _ cs s₂ h, byteLength]
      simp only [Nat.add_assoc]
    · have hvalid : ∀ t, (scan c cs).lexeme ≠ .invalid t := fun t ht => by
        refine h ((scan c cs).lexeme, ⟨here, here + byteLength (c :: (scan c cs).more)⟩) ?_ t ht
        rw [marks_cons]
        simp [ht]
      have hbytes : byteLength (c :: cs) =
          byteLength (c :: (scan c cs).more) + byteLength (scan c cs).rest := by
        rw [← byteLength_append, List.cons_append, more_append_rest_scan]
      rw [marks_cons, List.forall_mem_append] at h
      rw [List.cons_append, marks_cons, scan_append_line hc hvalid, marks_append_line _ _ s₂ h.2,
        marks_cons here c cs, hbytes, List.append_assoc, Nat.add_assoc here]
termination_by s₁.length
decreasing_by
  · exact Nat.lt_succ_self _
  · exact length_rest_scan c cs

theorem lexemes_shift (n here : Nat) (text : List Char) :
    lexemes (here + n) text = (lexemes here text).map (Prod.map id (Span.shift n)) := by
  fun_induction lexemes here text with
  | case1 => simp [lexemes]
  | case2 here c cs sc next ih =>
    rw [lexemes, List.map_cons, ← ih]
    simp only [Prod.map, id, Span.shift, next, sc, Nat.add_right_comm]

theorem marks_shift (n here : Nat) (text : List Char) :
    marks (here + n) text = (marks here text).map (Prod.map id (Span.shift n)) := by
  rw [marks, lexemes_shift, List.filter_map]
  rfl

end Lexer

theorem toList_append_line (s₁ s₂ : String) :
    (s₁ ++ "\n" ++ s₂).toList = s₁.toList ++ '\n' :: s₂.toList := by
  rw [String.toList_append, String.toList_append, List.append_assoc]
  rfl

/-- **Two texts with a line break between them have the tokens of both**, and what is no token in
the second, if all is tokens in the first. -/
theorem tokens_append_line {s₁ : String} (h : invalidText s₁ = []) (s₂ : String) :
    tokens (s₁ ++ "\n" ++ s₂) =
        tokens s₁ ++ (tokens s₂).map (Prod.map id (Span.shift (byteLength s₁.toList + 1))) ∧
      invalidText (s₁ ++ "\n" ++ s₂) =
        (invalidText s₂).map (Prod.map id (Span.shift (byteLength s₁.toList + 1))) := by
  have hvalid : ∀ p ∈ Lexer.marks 0 s₁.toList, ∀ t, p.1 ≠ .invalid t := by
    rintro ⟨l, s⟩ hp t rfl
    have hmem : (t, s) ∈ invalidText s₁ := mem_invalidText_iff.2 (List.mem_of_mem_filter hp)
    rw [h] at hmem
    cases hmem
  have hmarks : Lexer.marks 0 (s₁ ++ "\n" ++ s₂).toList = Lexer.marks 0 s₁.toList ++
      (Lexer.marks 0 s₂.toList).map (Prod.map id (Span.shift (byteLength s₁.toList + 1))) := by
    rw [toList_append_line, Lexer.marks_append_line 0 _ _ hvalid, ← Lexer.marks_shift,
      Nat.zero_add, Nat.zero_add]
  constructor
  · simp only [tokens, ← Lexer.filterMap_token?_marks, hmarks, List.filterMap_append,
      List.filterMap_map, List.map_filterMap]
    refine congrArg _ (List.filterMap_congr fun p _ => ?_)
    obtain ⟨l, s⟩ := p
    cases l <;> rfl
  · have hfirst : (Lexer.marks 0 s₁.toList).filterMap Lexeme.invalid? = [] := by
      rw [Lexer.filterMap_invalid?_marks]
      exact h
    simp only [invalidText, ← Lexer.filterMap_invalid?_marks, hmarks, List.filterMap_append, hfirst,
      List.nil_append, List.filterMap_map, List.map_filterMap]
    refine List.filterMap_congr fun p _ => ?_
    obtain ⟨l, s⟩ := p
    cases l <;> rfl

/-! ## Reading tokens that have moved -/

/-- Whether the offsets in `B` of a text are at moved positions of another text, so many bytes
further on. -/
def Moves (B : Set Nat) (text text' : List Char) (n : Nat) (g : Pos → Pos) : Prop :=
  ∀ o ∈ B, Pos.ofOffset text' (o + n) = g (Pos.ofOffset text o)

/-- Whether a span begins and ends at one of some offsets. -/
def Span.In (B : Set Nat) (s : Span) : Prop := s.start ∈ B ∧ s.stop ∈ B

section Moves

variable {B : Set Nat} {text text' : List Char} {n : Nat} {g : Pos → Pos} {s t : Span}

theorem Span.In.merge (hs : s.In B) (ht : t.In B) : (s.merge t).In B := by
  constructor
  · show min s.start t.start ∈ B
    rw [Nat.min_def]
    split
    · exact hs.1
    · exact ht.1
  · show max s.stop t.stop ∈ B
    rw [Nat.max_def]
    split
    · exact ht.2
    · exact hs.2

theorem Moves.range (h : Moves B text text' n g) (hs : s.In B) :
    (s.shift n).range text' = (s.range text).map g :=
  Range.mk.injEq .. |>.mpr ⟨h _ hs.1, h _ hs.2⟩

end Moves

namespace Reading

/-- Reading in progress with all its places moved. -/
def relocate (n : Nat) (g : Range → Range) (r : Reading) : Reading where
  openForms := r.openForms.map fun o => ⟨o.bracket, o.span.shift n, o.items.map (Form.relocate g)⟩
  forms := r.forms.map (Form.relocate g)
  errors := r.errors.map (ReadError.relocate g)

theorem relocate_zero (r : Reading) : r.relocate 0 (Range.map id) = r := by
  have hrange : Range.map id = id := rfl
  have hforms : ∀ fs : List Form, fs.map (Form.relocate id) = fs := fun fs => by
    rw [List.map_congr_left fun f _ => Form.relocate_id f, List.map_id']
  have herrors : ReadError.relocate id = id := rfl
  rw [hrange, relocate, herrors, List.map_id, hforms, Span.shift_zero]
  simp only [hforms, id, List.map_id']

/-- Whether the open brackets stand at some offsets. -/
def In (B : Set Nat) (r : Reading) : Prop := ∀ o ∈ r.openForms, o.span.In B

variable {B : Set Nat} {text text' : List Char} {n : Nat} {g : Pos → Pos} {r : Reading} {s : Span}

theorem relocate_add (n : Nat) (g : Range → Range) (r : Reading) (f : Form) :
    (r.add f).relocate n g = (r.relocate n g).add (f.relocate g) := by
  obtain ⟨openForms, forms, errors⟩ := r
  cases openForms <;> rfl

theorem In.add (h : r.In B) (f : Form) : (r.add f).In B := by
  obtain ⟨openForms, forms, errors⟩ := r
  cases openForms with
  | nil => exact h
  | cons o os => exact List.forall_mem_cons.2 (List.forall_mem_cons.1 h)

theorem relocate_report (h : Moves B text text' n g) (p : ReadProblem) (hs : s.In B) :
    (r.report text p s).relocate n (Range.map g) =
      (r.relocate n (Range.map g)).report text' p (s.shift n) := by
  simp only [report, relocate, List.map_cons, ReadError.relocate, h.range hs]

theorem relocate_close (h : Moves B text text' n g) {o : OpenForm} (ho : o.span.In B)
    (hs : s.In B) :
    (r.close text o s).relocate n (Range.map g) = (r.relocate n (Range.map g)).close text'
      ⟨o.bracket, o.span.shift n, o.items.map (Form.relocate (Range.map g))⟩ (s.shift n) := by
  unfold close
  simp only [List.length_map, Span.merge_shift]
  split
  · exact relocate_report h _ (ho.merge hs)
  · rw [relocate_add, Form.relocate, Form.relocateAll_eq_map, List.map_reverse,
      h.range (ho.merge hs)]

/-- **A token that has moved does as it did**, in its new place. -/
theorem step_relocate (h : Moves B text text' n g) (hr : r.In B) (t : Token)
    (hs : s.In B) :
    (r.step text (t, s)).relocate n (Range.map g) =
        (r.relocate n (Range.map g)).step text' (t, s.shift n) ∧
      (r.step text (t, s)).In B := by
  cases t with
  | opening b => exact ⟨rfl, List.forall_mem_cons.2 ⟨hs, hr⟩⟩
  | closing c =>
    obtain ⟨openForms, forms, errors⟩ := r
    cases openForms with
    | nil => exact ⟨relocate_report h _ hs, hr⟩
    | cons o os =>
      obtain ⟨ho, hos⟩ := List.forall_mem_cons.1 hr
      by_cases hc : o.bracket.closer = c
      · have hclosed : In B (close text ⟨os, forms, errors⟩ o s) := by
          unfold close
          dsimp only
          split
          · exact hos
          · exact In.add (r := ⟨os, forms, errors⟩) hos _
        simp only [step, if_pos hc, relocate_close h ho hs]
        exact ⟨by simp only [relocate, List.map_cons, if_pos hc], hclosed⟩
      · simp only [step, if_neg hc, relocate_report h _ hs]
        exact ⟨by simp only [relocate, List.map_cons, if_neg hc], hr⟩
  | ascribe | bool | int | str | symbol =>
    refine ⟨?_, hr.add _⟩
    simp only [step, relocate_add, Form.relocate, h.range hs]

/-- **Tokens that have moved make the same forms in their new places.** -/
theorem foldl_step_relocate (h : Moves B text text' n g) (hr : r.In B) {ts : List (Token × Span)}
    (hts : ∀ t ∈ ts, t.2.In B) :
    (ts.foldl (step text) r).relocate n (Range.map g) =
        (ts.map (Prod.map id (Span.shift n))).foldl (step text') (r.relocate n (Range.map g)) ∧
      (ts.foldl (step text) r).In B := by
  induction ts generalizing r with
  | nil => exact ⟨rfl, hr⟩
  | cons t ts ih =>
    obtain ⟨ht, hts⟩ := List.forall_mem_cons.1 hts
    obtain ⟨hstep, hin⟩ := step_relocate h hr t.1 ht
    rw [List.foldl_cons, List.map_cons, List.foldl_cons]
    refine ⟨(ih hin hts).1.trans ?_, (ih hin hts).2⟩
    rw [hstep]
    rfl

theorem finish_relocate (h : Moves B text text' n g) (hr : r.In B) :
    (r.finish text).relocate n (Range.map g) = (r.relocate n (Range.map g)).finish text' := by
  have hfold : ∀ (os : List OpenForm) (r : Reading), (∀ o ∈ os, o.span.In B) →
      (os.foldl (fun r o => r.report text (.unclosed o.bracket) o.span) r).relocate n
          (Range.map g) =
        (os.map fun o => OpenForm.mk o.bracket (o.span.shift n)
            (o.items.map (Form.relocate (Range.map g)))).foldl
          (fun r o => r.report text' (.unclosed o.bracket) o.span)
          (r.relocate n (Range.map g)) := by
    intro os
    induction os with
    | nil => exact fun _ _ => rfl
    | cons o os ih =>
      intro r hos
      obtain ⟨ho, hos⟩ := List.forall_mem_cons.1 hos
      rw [List.foldl_cons, List.map_cons, List.foldl_cons, ih _ hos, relocate_report h _ ho]
  exact hfold r.openForms r hr

/-- Reading in progress after some forms that are complete. -/
def onto (fs : List Form) (r : Reading) : Reading := { r with forms := r.forms ++ fs }

theorem step_onto (fs : List Form) (r : Reading) (t : Token × Span) :
    (r.onto fs).step text t = (r.step text t).onto fs := by
  have hadd : ∀ (r : Reading) f, (r.onto fs).add f = (r.add f).onto fs := fun r f => by
    obtain ⟨openForms, forms, errors⟩ := r
    cases openForms <;> rfl
  obtain ⟨t, s⟩ := t
  cases t with
  | opening b => rfl
  | closing c =>
    obtain ⟨openForms, forms, errors⟩ := r
    cases openForms with
    | nil => rfl
    | cons o os =>
      simp only [step, onto]
      split
      · unfold close
        dsimp only
        split
        · rfl
        · exact hadd ⟨os, forms, errors⟩ _
      · rfl
  | ascribe | bool | int | str | symbol => exact hadd r _

theorem foldl_step_onto (fs : List Form) (r : Reading) (ts : List (Token × Span)) :
    ts.foldl (step text) (r.onto fs) = (ts.foldl (step text) r).onto fs := by
  induction ts generalizing r with
  | nil => rfl
  | cons t ts ih => rw [List.foldl_cons, List.foldl_cons, step_onto, ih]

theorem finish_onto (fs : List Form) (r : Reading) :
    (r.onto fs).finish text = (r.finish text).onto fs := by
  have hfold : ∀ (os : List OpenForm) (r : Reading),
      os.foldl (fun r o => r.report text (.unclosed o.bracket) o.span) (r.onto fs) =
        (os.foldl (fun r o => r.report text (.unclosed o.bracket) o.span) r).onto fs := by
    intro os
    induction os with
    | nil => exact fun _ => rfl
    | cons o os ih => exact fun r => ih (r.report text (.unclosed o.bracket) o.span)
  exact hfold r.openForms r

end Reading

/-! ## Two texts with a line break between them -/

theorem moves_append (text rest : List Char) :
    Moves (boundaries text) text (text ++ rest) 0 id := by
  rintro _ ⟨before, after, rfl, rfl⟩
  rw [Nat.add_zero, List.append_assoc, Pos.ofOffset_byteLength, Pos.ofOffset_byteLength, id]

theorem foldl_next_down (n : Nat) (p : Pos) (cs : List Char) :
    cs.foldl Pos.next (p.down n) = (cs.foldl Pos.next p).down n := by
  induction cs generalizing p with
  | nil => rfl
  | cons c cs ih =>
    have hnext : (p.down n).next c = (p.next c).down n := by
      unfold Pos.next
      split
      · simp only [Pos.down, Nat.add_right_comm]
      · rfl
    rw [List.foldl_cons, List.foldl_cons, hnext, ih]

theorem moves_append_line (text rest : List Char) :
    Moves (boundaries rest) rest (text ++ '\n' :: rest) (byteLength text + 1)
      (Pos.down (text.count '\n' + 1)) := by
  rintro _ ⟨before, after, rfl, rfl⟩
  have htext : text ++ '\n' :: (before ++ after) = (text ++ '\n' :: before) ++ after := by simp
  have hbytes : byteLength before + (byteLength text + 1) =
      byteLength (text ++ '\n' :: before) := by
    have hbreak : ('\n' : Char).utf8Size = 1 := rfl
    rw [byteLength_append, byteLength, hbreak]
    omega
  have hstart : (Pos.after text).next '\n' = Pos.down (text.count '\n' + 1) ⟨1, 1⟩ := by
    rw [Pos.after_eq, Pos.next, if_pos rfl, Pos.down, Nat.add_comm 1]
  rw [htext, hbytes, Pos.ofOffset_byteLength, Pos.ofOffset_byteLength, Pos.after,
    List.foldl_append, List.foldl_cons, ← Pos.after, hstart, foldl_next_down, Pos.after]

theorem span_in_boundaries {text : List Char} {l : Lexeme} {s : Span}
    (h : (l, s) ∈ lexemes 0 text) : s.In (boundaries text) := by
  obtain ⟨before, c, cs, rfl, -, rfl⟩ := exists_scan_of_mem_lexemes h
  refine ⟨⟨before, c :: cs, rfl, by simp⟩, before ++ c :: (Lexer.scan c cs).more,
    (Lexer.scan c cs).rest, ?_, by simp⟩
  rw [List.append_assoc, List.cons_append, Lexer.more_append_rest_scan]

/-- A text without an error is tokens and blank space only, and it leaves no bracket open. -/
theorem reading_of_no_errors {source : String} (h : (read source).2 = []) :
    invalidText source = [] ∧
      (tokens source).foldl (Reading.step source.toList) {} =
        { forms := (read source).1.reverse } := by
  simp only [read, Reading.errors_finish, Reading.forms_finish, List.append_eq_nil_iff,
    List.map_eq_nil_iff, List.reverse_eq_nil_iff, List.reverse_reverse] at h ⊢
  obtain ⟨hinvalid, herrors, hopen⟩ := h
  refine ⟨hinvalid, ?_⟩
  generalize (tokens source).foldl (Reading.step source.toList) {} = r at herrors hopen ⊢
  obtain ⟨openForms, forms, errors⟩ := r
  cases herrors
  cases hopen
  rfl

/-- **Reading is compositional at line ends.** A text that has no error and another one on the lines
after it have the forms of both and the errors of the second, which is as far down as the first has
lines. -/
theorem read_append_line {s₁ : String} (h : (read s₁).2 = []) (s₂ : String) :
    read (s₁ ++ "\n" ++ s₂) =
      ((read s₁).1 ++
        (read s₂).1.map (Form.relocate (Range.map (Pos.down (s₁.toList.count '\n' + 1)))),
      (read s₂).2.map (ReadError.relocate (Range.map (Pos.down (s₁.toList.count '\n' + 1))))) := by
  obtain ⟨hvalid, hfirst⟩ := reading_of_no_errors h
  obtain ⟨htokens, hinvalid⟩ := tokens_append_line hvalid s₂
  have hmoves := moves_append_line s₁.toList s₂.toList
  rw [← toList_append_line] at hmoves
  have hstays := moves_append s₁.toList ('\n' :: s₂.toList)
  rw [← toList_append_line] at hstays
  -- The tokens of the first text are read as on their own, and stay where they are.
  have hread₁ : (tokens s₁).foldl (Reading.step (s₁ ++ "\n" ++ s₂).toList) {} =
      Reading.onto (read s₁).1.reverse {} := by
    have hfold := (Reading.foldl_step_relocate hstays (r := {}) (by simp [Reading.In])
      (inOrder_tokens s₁).bounded).1
    rw [hfirst, Reading.relocate_zero, Span.shift_zero, Prod.map_id, List.map_id,
      Reading.relocate_zero] at hfold
    rw [← hfold]
    rfl
  -- Those of the second are read as on their own too, but further down.
  have hread₂ := Reading.foldl_step_relocate hmoves (r := {}) (by simp [Reading.In])
    (inOrder_tokens s₂).bounded
  have hfinish := Reading.finish_relocate hmoves hread₂.2
  rw [hread₂.1] at hfinish
  have hjoined : ((tokens (s₁ ++ "\n" ++ s₂)).foldl (Reading.step (s₁ ++ "\n" ++ s₂).toList)
      {}).finish (s₁ ++ "\n" ++ s₂).toList =
      ((((tokens s₂).foldl (Reading.step s₂.toList) {}).finish s₂.toList).relocate
        (byteLength s₁.toList + 1)
        (Range.map (Pos.down (s₁.toList.count '\n' + 1)))).onto (read s₁).1.reverse := by
    rw [htokens, List.foldl_append, hread₁, Reading.foldl_step_onto, Reading.finish_onto, hfinish]
    rfl
  simp only [read] at hjoined ⊢
  rw [hjoined, hinvalid]
  simp only [Reading.onto, Reading.relocate, List.reverse_append, List.reverse_reverse,
    List.map_append, List.map_reverse, List.map_map]
  congr 2
  refine List.map_congr_left fun p hp => ?_
  simp only [Function.comp, Prod.map, id, ReadError.relocate]
  rw [hmoves.range (span_in_boundaries (mem_invalidText_iff.1 hp))]

end TypedLisp
