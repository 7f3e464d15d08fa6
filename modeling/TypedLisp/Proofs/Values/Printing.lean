import TypedLisp.Proofs.Heap.ValueOrder
import TypedLisp.Proofs.Reading.RoundTrip
import TypedLisp.Proofs.Scoping.Denotation

/-!
# Reading printed values

A plain value is written like a form (`Value.form`): its literals are atoms, and its collections are
bracketed sequences, in which the keys and values of a map stand in turn. The text of the value is
read as this form (`Value.readAll_text`).
-/

namespace TypedLisp

/-! ## Entries in turn -/

/-- The keys and values of entries in turn. -/
def inTurn {α : Type} : List (α × α) → List α
  | [] => []
  | e :: es => e.1 :: e.2 :: inTurn es

section InTurn

variable {α β : Type}

@[simp]
theorem pairs_inTurn (es : List (α × α)) : pairs (inTurn es) = es := by
  induction es with
  | nil => rfl
  | cons e es ih => rw [inTurn, pairs, ih]

theorem map_inTurn (f : α → β) (es : List (α × α)) :
    (inTurn es).map f = inTurn (es.map fun e => (f e.1, f e.2)) := by
  induction es with
  | nil => rfl
  | cons e es ih => simp only [inTurn, List.map_cons, ih]

theorem length_inTurn (es : List (α × α)) : (inTurn es).length = 2 * es.length := by
  induction es with
  | nil => rfl
  | cons e es ih =>
    rw [inTurn, List.length_cons, List.length_cons, List.length_cons, ih]
    omega

theorem forall_mem_inTurn {p : α → Prop} {es : List (α × α)} :
    (∀ a ∈ inTurn es, p a) ↔ ∀ e ∈ es, p e.1 ∧ p e.2 := by
  induction es with
  | nil => simp [inTurn]
  | cons e es ih => simp only [inTurn, List.forall_mem_cons, ih, and_assoc]

theorem forall₂_inTurn {R : α → β → Prop} {es : List (α × α)} {es' : List (β × β)}
    (h : List.Forall₂ (fun e e' => R e.1 e'.1 ∧ R e.2 e'.2) es es') :
    List.Forall₂ R (inTurn es) (inTurn es') := by
  induction h with
  | nil => exact .nil
  | cons he _ ih => exact .cons he.1 (.cons he.2 ih)

theorem forall₂_pairs {R : α → β → Prop} {as : List α} {es : List (β × β)}
    (h : List.Forall₂ R as (inTurn es)) :
    List.Forall₂ (fun p e => R p.1 e.1 ∧ R p.2 e.2) (pairs as) es := by
  induction es generalizing as with
  | nil =>
    cases h
    exact .nil
  | cons e es ih =>
    obtain _ | ⟨hk, _ | ⟨hv, hrest⟩⟩ := h
    exact .cons ⟨hk, hv⟩ (ih hrest)

end InTurn

/-! ## The form of a value -/

namespace Value

mutual

/-- The form of a value. Functions and variants have none of their own. -/
def form : Value → Form
  | .bool b => .atom (.bool b) .nowhere
  | .int n => .atom (.int n) .nowhere
  | .str s => .atom (.str s) .nowhere
  | .vector vs => .seq .vector (forms vs) .nowhere
  | .set vs => .seq .set (forms vs) .nowhere
  | .map es => .seq .map (entryForms es) .nowhere
  | .fn _ _ => default
  | .variant _ _ _ => default

/-- The forms of some values. -/
def forms : List Value → List Form
  | [] => []
  | v :: vs => form v :: forms vs

/-- The forms of keys and values in turn. -/
def entryForms : List (Value × Value) → List Form
  | [] => []
  | (k, v) :: es => form k :: form v :: entryForms es

end

mutual

/-- The strings in a value. -/
def strings : Value → List String
  | .str s => [s]
  | .vector vs => stringsAll vs
  | .set vs => stringsAll vs
  | .map es => stringsEntries es
  | .variant _ _ vs => stringsAll vs
  | _ => []

/-- The strings in some values. -/
def stringsAll : List Value → List String
  | [] => []
  | v :: vs => strings v ++ stringsAll vs

/-- The strings in keys and values. -/
def stringsEntries : List (Value × Value) → List String
  | [] => []
  | (k, v) :: es => strings k ++ strings v ++ stringsEntries es

end

/-- Whether no string in a value has a character that is shown by its code point. -/
def Printable (v : Value) : Prop := ∀ s ∈ v.strings, ∀ c ∈ s.toList, ¬Text.ByCodePoint c

instance (v : Value) : Decidable v.Printable :=
  -- Decided along the strings: there is an instance that goes through all characters there are.
  have (s : String) : Decidable (∀ c ∈ s.toList, ¬Text.ByCodePoint c) := List.decidableBAll _ _
  List.decidableBAll _ _

theorem forms_eq_map (vs : List Value) : forms vs = vs.map form := by
  induction vs with
  | nil => rfl
  | cons v vs ih => rw [forms, ih, List.map_cons]

theorem entryForms_eq_map (es : List (Value × Value)) : entryForms es = (inTurn es).map form := by
  induction es with
  | nil => rfl
  | cons e es ih => rw [entryForms, ih, inTurn, List.map_cons, List.map_cons]

theorem texts_eq_map (vs : List Value) : texts vs = vs.map text := by
  induction vs with
  | nil => rfl
  | cons v vs ih => rw [texts, ih, List.map_cons]

theorem entryTexts_eq_map (es : List (Value × Value)) : entryTexts es = (inTurn es).map text := by
  induction es with
  | nil => rfl
  | cons e es ih => rw [entryTexts, ih, inTurn, List.map_cons, List.map_cons]

theorem stringsAll_eq_flatMap (vs : List Value) : stringsAll vs = vs.flatMap strings := by
  induction vs with
  | nil => rfl
  | cons v vs ih => rw [stringsAll, ih, List.flatMap_cons]

theorem stringsEntries_eq_flatMap (es : List (Value × Value)) :
    stringsEntries es = (inTurn es).flatMap strings := by
  induction es with
  | nil => rfl
  | cons e es ih =>
    rw [stringsEntries, ih, inTurn, List.flatMap_cons, List.flatMap_cons, List.append_assoc]

end Value

/-! ## Plain values -/

/-- The value of a literal. -/
def Literal.value : Literal → Value
  | .bool b => .bool b
  | .int n => .int n
  | .str s => .str s

/-- The atom that a literal is written as. -/
def Literal.atom : Literal → Atom
  | .bool b => .bool b
  | .int n => .int n
  | .str s => .str s

namespace Value

/-- Whether a value is a collection of a kind, with the parts that are written between its
brackets. -/
inductive Collects : Value → Collection → List Value → Prop where
  | vector (vs : List Value) : Collects (.vector vs) .vector vs
  | set (vs : List Value) : Collects (.set vs) .set vs
  | map (es : List (Value × Value)) : Collects (.map es) .map (inTurn es)

variable {v : Value} {k : Collection} {ws : List Value}

theorem not_collects_value (l : Literal) : ¬l.value.Collects k ws := by
  intro h
  cases l <;> cases h

theorem Collects.form_eq (h : v.Collects k ws) :
    v.form = .seq k.bracket (ws.map form) .nowhere := by
  cases h with
  | vector | set => rw [form, forms_eq_map]; rfl
  | map => rw [form, entryForms_eq_map]; rfl

theorem Collects.text_eq (h : v.Collects k ws) :
    v.text = k.bracket.opener ++ " ".intercalate (ws.map text) ++ k.bracket.closer.text := by
  cases h with
  | vector | set => rw [text, texts_eq_map]; rfl
  | map => rw [text, entryTexts_eq_map]; rfl

theorem Collects.strings_eq (h : v.Collects k ws) : v.strings = ws.flatMap strings := by
  cases h with
  | vector | set => rw [strings, stringsAll_eq_flatMap]
  | map => rw [strings, stringsEntries_eq_flatMap]

theorem Collects.even (h : v.Collects k ws) (hk : k.bracket = .map) : ws.length % 2 = 0 := by
  cases h with
  | vector | set => cases hk
  | map es => rw [length_inTurn, Nat.mul_mod_right]

theorem form_value (l : Literal) : l.value.form = .atom l.atom .nowhere := by
  cases l <;> rfl

theorem Plain.ind {motive : ∀ v : Value, v.Plain → Prop}
    (literal : ∀ (l : Literal) (h : l.value.Plain), motive l.value h)
    (collects : ∀ v k ws (h : v.Plain), v.Collects k ws → ∀ hws : ∀ w ∈ ws, w.Plain,
      (∀ w (hw : w ∈ ws), motive w (hws w hw)) → motive v h)
    (h : v.Plain) : motive v h := by
  induction h with
  | bool b => exact literal (.bool b) _
  | int n => exact literal (.int n) _
  | str s => exact literal (.str s) _
  | vector h ih => exact collects _ _ _ _ (.vector _) h ih
  | set h ih => exact collects _ _ _ _ (.set _) h ih
  | map hk hv ihk ihv =>
    have parts := forall_mem_inTurn (p := fun w => ∃ h : w.Plain, motive w h).2
      fun e he => ⟨⟨hk e he, ihk e he⟩, hv e he, ihv e he⟩
    exact collects _ _ _ _ (.map _) (fun w hw => (parts w hw).1) fun w hw => (parts w hw).2
  | variant hd => exact hd.elim

theorem Plain.text_form (h : v.Plain) : v.form.text = v.text := by
  induction h using Plain.ind with
  | literal l _ => cases l <;> rfl
  | collects v k ws _ hv _ ih =>
    have hparts : (ws.map form).map Form.text = ws.map text := by
      rw [List.map_map]
      exact List.map_congr_left ih
    rw [hv.form_eq, Form.text, Form.texts_eq_map, hparts, hv.text_eq]

theorem Plain.bare_form (h : v.Plain) : v.form.bare = v.form := by
  induction h using Plain.ind with
  | literal l _ => rw [form_value, Form.bare]
  | collects v k ws _ hv _ ih =>
    rw [hv.form_eq, Form.bare, Form.bareAll_eq_map, List.map_map]
    exact congrArg (Form.seq _ · _) (List.map_congr_left ih)

theorem Plain.grammatical_form (h : v.Plain) : v.form.Grammatical := by
  induction h using Plain.ind with
  | literal l _ =>
    rw [form_value, Form.grammatical_atom_iff]
    cases l <;> exact trivial
  | collects v k ws _ hv _ ih =>
    rw [hv.form_eq, Form.grammatical_seq_iff, List.length_map]
    exact ⟨hv.even, List.forall_mem_map.2 ih⟩

/-- The atoms of a plain value are literals, and the strings among them are its strings. -/
theorem Plain.mem_atoms_form (h : v.Plain) {a : Atom} (ha : a ∈ v.form.atoms) :
    ∃ l : Literal, a = l.atom ∧ ∀ s, l = .str s → s ∈ v.strings := by
  induction h using Plain.ind with
  | literal l _ =>
    rw [form_value] at ha
    refine ⟨l, List.mem_singleton.1 ha, ?_⟩
    rintro s rfl
    exact List.mem_singleton_self s
  | collects v k ws _ hv _ ih =>
    rw [hv.form_eq, Form.atoms, Form.atomsAll_eq_flatMap, List.flatMap_map, List.mem_flatMap] at ha
    obtain ⟨w, hw, haw⟩ := ha
    obtain ⟨l, hl, hstr⟩ := ih w hw haw
    rw [hv.strings_eq]
    exact ⟨l, hl, fun s hs => List.mem_flatMap.2 ⟨w, hw, hstr s hs⟩⟩

/-- **The text of a plain value is read as the form of the value.** -/
theorem readAll_text (h : v.Plain) (hprintable : v.Printable) :
    ∃ g, readAll v.text = .ok [g] ∧ g.bare = v.form := by
  have hlexical : ∀ a ∈ v.form.atoms, a.token.Lexical := by
    intro a ha
    obtain ⟨l, rfl, -⟩ := h.mem_atoms_form ha
    cases l <;> exact trivial
  have hform : v.form.Printable := by
    intro s hs
    obtain ⟨l, hl, hstr⟩ := h.mem_atoms_form hs
    cases l with
    | bool | int => cases hl
    | str s' =>
      cases hl
      exact hprintable s (hstr s rfl)
  obtain ⟨g, hg, hbare⟩ := Form.readAll_text_of_printable h.grammatical_form hlexical hform
  exact ⟨g, h.text_form ▸ hg, hbare.trans h.bare_form⟩

end Value

end TypedLisp
